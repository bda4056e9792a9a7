import Peershares.Framework.Incremental
import Peershares.Ledger.Chain
import Peershares.Model.Net

/-!
# Messages and chunks

The receive loop as a reader of bytes (`messageReader`): it waits, skips garbage, or takes a message off
the front. Its decisions are final, so the messages do not depend on how the bytes are cut into chunks.
`RecvState.receive_spec` connects the reader with the code, which moves a read position, rewinds and
compacts.

That a decision is final has to be shown for each of them. A message start that was found is found at the same place
when more bytes follow (`search_append_of_lt`); one that was not found may begin in the last bytes, so these are kept
(`search_append_of_le`). A header is parsed when it is there in full, and a message taken when its payload is. The
checksum and the command are those of the bytes that were there (`scanAt_append`).

On the side of the code, `Ok` says that the read position is within the buffer, and `data` is what is behind it; each
operation of the stream is given by what it does to `data`. The sender is treated the same way (`pushMessage_spec`):
the size and the checksum are written into the header after the payload is known.

A message whose processing closes the connection is the last one: the buffer is cleared and nothing is
appended any more.

* `receiveAll_eq` — any chunks of any bytes are read like the bytes in one piece
* `receiveAll_pushAll` — and what was pushed is received
* `receiveAll_spec` — any chunks of any bytes, and of the bytes of any messages
* `receiveAll_closed` — the messages behind one that closes the connection are lost
-/

open Framework

namespace Peershares

/-! ### Streams -/

namespace CDataStream

/-- The read position is not behind the end. -/
def Ok (s : CDataStream) : Prop := s.nReadPos ≤ s.vch.length

variable {s : CDataStream}

/-- The empty stream. -/
theorem ok_empty : Ok {} := Nat.le_refl _

/-- The unread bytes are what `size()` counts. -/
theorem length_data (s : CDataStream) : s.data.length = s.size := List.length_drop

/-- `erase` of a range at the front, which may only move `nReadPos`. -/
theorem eraseFront_spec (h : s.Ok) {n : ℕ} (hn : n ≤ s.size) :
    (s.eraseFront n).Ok ∧ (s.eraseFront n).data = s.data.drop n := by
  unfold Ok at h
  unfold size at hn
  unfold eraseFront
  split_ifs with hend
  · refine ⟨ok_empty, ?_⟩
    unfold data
    rw [List.drop_drop, List.drop_of_length_le hend.ge]
    rfl
  · unfold Ok data
    rw [List.drop_drop]
    exact ⟨by dsimp only; omega, rfl⟩

/-- Moving `nReadPos` on. -/
theorem advance_spec {n : ℕ} : (s.advance n).Ok ∧ (s.advance n).data = s.data.drop n := by
  unfold advance
  split_ifs with hend
  · refine ⟨ok_empty, ?_⟩
    unfold data
    rw [List.drop_drop, List.drop_of_length_le hend]
    rfl
  · unfold Ok data
    rw [List.drop_drop]
    exact ⟨by dsimp only; omega, rfl⟩

/-- `insert` at the front uses the bytes already read when there is room. -/
theorem insertFront_spec (h : s.Ok) (bytes : List UInt8) :
    (s.insertFront bytes).Ok ∧ (s.insertFront bytes).data = bytes ++ s.data := by
  unfold Ok at h
  unfold insertFront
  split_ifs with hroom
  · -- the bytes are written over those that were read
    have hlen : (s.vch.take (s.nReadPos - bytes.length)).length = s.nReadPos - bytes.length := by
      rw [List.length_take]
      omega
    unfold Ok data
    refine ⟨?_, ?_⟩
    · dsimp only
      rw [List.length_append, List.length_append, hlen]
      omega
    · dsimp only
      rw [List.append_assoc, List.drop_left' hlen]
  · -- there is no room, so the whole vector moves
    have hlen : (s.vch.take s.nReadPos).length = s.nReadPos := by
      rw [List.length_take]
      omega
    unfold Ok data
    refine ⟨?_, ?_⟩
    · dsimp only
      rw [List.length_append, List.length_append, hlen]
      omega
    · dsimp only
      rw [List.append_assoc, List.drop_left' hlen]

/-- `Compact` drops the bytes already read. -/
theorem compact_spec : s.compact.Ok ∧ s.compact.data = s.data := ⟨Nat.zero_le _, rfl⟩

/-- `write` appends. -/
theorem write_spec (h : s.Ok) (bytes : List UInt8) :
    (s.write bytes).Ok ∧ (s.write bytes).data = s.data ++ bytes := by
  unfold Ok at h
  unfold Ok write data
  refine ⟨?_, List.drop_append_of_le_length h⟩
  dsimp only
  rw [List.length_append]
  omega

/-- The `memcpy` of `EndMessage` into the stream. -/
theorem overwrite_spec (h : s.Ok) {pos : ℕ} {bytes : List UInt8} (hpos : pos + bytes.length ≤ s.size) :
    (s.overwrite pos bytes).Ok ∧
      (s.overwrite pos bytes).data = s.data.take pos ++ bytes ++ s.data.drop (pos + bytes.length) := by
  unfold Ok at h
  unfold size at hpos
  have hlen : (s.vch.take (s.nReadPos + pos)).length = s.nReadPos + pos := by
    rw [List.length_take]
    omega
  unfold overwrite Ok data
  refine ⟨?_, ?_⟩
  · dsimp only
    rw [List.length_append, List.length_append, hlen]
    omega
  · dsimp only
    rw [List.append_assoc, List.drop_append_of_le_length (by omega), List.drop_take,
      Nat.add_sub_cancel_left, List.drop_drop, List.append_assoc, Nat.add_assoc]

/-- `read` of bytes that are there. -/
theorem read_eq_ok {n : ℕ} (hn : n ≤ s.size) (h : s.Ok) :
    s.read n = .ok (s.data.take n, s.advance n) := by
  unfold Ok at h
  unfold size at hn
  unfold read
  rw [if_neg (by omega)]
  rfl

/-- `ignore` of bytes that are there. -/
theorem ignore_eq_ok {n : ℕ} (hn : n ≤ s.size) (h : s.Ok) : s.ignore n = .ok (s.advance n) := by
  unfold Ok at h
  unfold size at hn
  unfold ignore
  rw [if_neg (by omega)]

end CDataStream

/-! ### The start of a message -/

section Search

variable {pattern a j k c : List UInt8}

/-- More bytes behind do not change whether a pattern stands at the front. -/
theorem isPrefixOf_append (h : pattern.length ≤ a.length) :
    pattern.isPrefixOf (a ++ c) = pattern.isPrefixOf a := by
  rw [Bool.eq_iff_iff, List.isPrefixOf_iff_prefix, List.isPrefixOf_iff_prefix]
  constructor
  · exact fun hpre => List.prefix_of_prefix_length_le hpre (List.prefix_append a c) h
  · exact fun hpre => hpre.trans (List.prefix_append a c)

/-- `std::search` returns a place in the row, or its end. -/
theorem search_le (pattern a : List UInt8) : search pattern a ≤ a.length := by
  induction a with
  | nil => exact Nat.le_refl _
  | cons x a ih =>
    unfold search
    split_ifs
    · exact Nat.zero_le _
    · exact Nat.succ_le_succ ih

/-- What is found is there. -/
theorem prefix_of_search_lt (h : search pattern a < a.length) :
    pattern <+: a.drop (search pattern a) := by
  induction a with
  | nil => exact absurd h (Nat.not_lt_zero _)
  | cons x a ih =>
    unfold search at h ⊢
    split_ifs at h ⊢ with hpre
    · exact List.isPrefixOf_iff_prefix.mp hpre
    · rw [List.length_cons] at h
      rw [List.drop_succ_cons]
      exact ih (Nat.lt_of_succ_lt_succ h)

/-- Input that is appended does not change the first occurrence. -/
theorem search_append_of_lt (h : search pattern a < a.length) :
    search pattern (a ++ c) = search pattern a := by
  induction a with
  | nil => exact absurd h (Nat.not_lt_zero _)
  | cons x a ih =>
    have hfound := (prefix_of_search_lt h).length_le
    rw [List.length_drop] at hfound
    have hpre : pattern.isPrefixOf (x :: a ++ c) = pattern.isPrefixOf (x :: a) :=
      isPrefixOf_append (by omega)
    rw [List.cons_append] at hpre ⊢
    unfold search at h ⊢
    rw [hpre]
    split_ifs at h ⊢
    · rfl
    · rw [List.length_cons] at h
      rw [ih (Nat.lt_of_succ_lt_succ h)]

/-- A front without an occurrence that starts in it can be dropped. -/
theorem search_append_of_le (hk : pattern.length ≤ k.length) (h : j.length ≤ search pattern (j ++ k)) :
    search pattern (j ++ (k ++ c)) = j.length + search pattern (k ++ c) := by
  induction j with
  | nil => rw [List.nil_append, List.length_nil, Nat.zero_add]
  | cons x j ih =>
    have hpre : pattern.isPrefixOf (x :: (j ++ (k ++ c))) = pattern.isPrefixOf (x :: (j ++ k)) := by
      have happend : x :: (j ++ (k ++ c)) = x :: (j ++ k) ++ c := by simp
      rw [happend]
      refine isPrefixOf_append ?_
      rw [List.length_cons, List.length_append]
      omega
    rw [List.cons_append] at h ⊢
    unfold search at h
    conv_lhs => unfold search
    rw [hpre]
    split_ifs at h ⊢
    · exact absurd h (by simp)
    · rw [List.length_cons] at h ⊢
      rw [ih (Nat.le_of_succ_le_succ h)]
      omega

/-- A pattern at the front is found there. -/
theorem search_eq_zero (hne : pattern ≠ []) (h : pattern <+: a) : search pattern a = 0 := by
  cases a with
  | nil => exact absurd (List.prefix_nil.mp h) hne
  | cons x a =>
    have hpre := List.isPrefixOf_iff_prefix.mpr h
    unfold search
    rw [if_pos hpre]

end Search

/-! ### The reader -/

open CMessageHeader

/-- The header at the front of the bytes. -/
def headerAt (b : List UInt8) : CMessageHeader where
  pchMessageStart := b.take 4
  pchCommand := (b.drop 4).take COMMAND_SIZE
  nMessageSize := ofBytes32 ((b.drop 16).take 4)
  nChecksum := ofBytes32 ((b.drop 20).take 4)

/-- What the loop does with a header at the front. -/
def scanAt (P : Params) (hash : List UInt8 → Uint256) (b : List UInt8) : Scan UInt8 NetMessage :=
  let hdr := headerAt b
  let rest := b.drop nHeaderSize
  if !hdr.isValid P then .skip rest
  else if MAX_SIZE < hdr.nMessageSize then .skip rest
  else if rest.length < hdr.nMessageSize then .wait b
  else if SendState.nChecksum hash (rest.take hdr.nMessageSize) ≠ hdr.nChecksum then .skip rest
  else .emit ⟨hdr.getCommand, rest.take hdr.nMessageSize⟩ (rest.drop hdr.nMessageSize)

/-- One round of the loop. -/
def scanMessage (P : Params) (hash : List UInt8 → Uint256) (a : List UInt8) : Scan UInt8 NetMessage :=
  let nStart := search (getMessageStart P) a
  if a.length - nStart < nHeaderSize then
    .wait (if nHeaderSize < a.length then a.drop (a.length - nHeaderSize) else a)
  else scanAt P hash (a.drop nStart)

section Reader

variable {P : Params} {hash : List UInt8 → Uint256} {a b c rest : List UInt8} {msg : NetMessage}

/-- A part that is complete does not change with more bytes behind it. -/
theorem take_drop_append {m n : ℕ} (h : m + n ≤ b.length) :
    ((b ++ c).drop m).take n = (b.drop m).take n := by
  rw [List.drop_append_of_le_length (by omega), List.take_append_of_le_length]
  rw [List.length_drop]
  omega

/-- So a complete header is read the same with more bytes behind it. -/
theorem headerAt_append (h : nHeaderSize ≤ b.length) : headerAt (b ++ c) = headerAt b := by
  have hsize : nHeaderSize = 24 := rfl
  have hcommand : COMMAND_SIZE = 12 := rfl
  unfold headerAt
  rw [List.take_append_of_le_length (by omega), take_drop_append (by omega), take_drop_append (by omega),
    take_drop_append (by omega)]

/-- The cases of `scanAt`. -/
theorem scanAt_lt (h : nHeaderSize ≤ b.length) :
    (∀ rest, scanAt P hash b = .skip rest → rest.length < b.length) ∧
    (∀ msg rest, scanAt P hash b = .emit msg rest → rest.length < b.length) := by
  have hsize : nHeaderSize = 24 := rfl
  have hdrop : (b.drop nHeaderSize).length < b.length := by
    rw [List.length_drop]
    omega
  unfold scanAt
  dsimp only
  constructor
  · intro rest heq
    split_ifs at heq <;> cases heq <;> exact hdrop
  · intro msg rest heq
    split_ifs at heq
    cases heq
    rw [List.length_drop]
    omega

/-- More input does not change what is done with a header, unless it is waited for. -/
theorem scanAt_append (h : nHeaderSize ≤ b.length) (hwait : ∀ rest, scanAt P hash b ≠ .wait rest) :
    scanAt P hash (b ++ c) =
      match scanAt P hash b with
      | .wait rest => .wait rest
      | .skip rest => .skip (rest ++ c)
      | .emit msg rest => .emit msg (rest ++ c) := by
  have hrest : (b ++ c).drop nHeaderSize = b.drop nHeaderSize ++ c :=
    List.drop_append_of_le_length h
  unfold scanAt at hwait ⊢
  dsimp only at hwait ⊢
  -- the header lies in `b`, so it is the same
  rw [headerAt_append h, hrest]
  split_ifs at hwait with hvalid hmax hsize hsum
  · rw [if_pos hvalid, if_pos hvalid]
  · rw [if_neg hvalid, if_pos hmax, if_neg hvalid, if_pos hmax]
  · exact absurd rfl (hwait b)
  -- the whole payload is there, and more input comes behind it
  all_goals
    have htake : (b.drop nHeaderSize ++ c).take (headerAt b).nMessageSize =
        (b.drop nHeaderSize).take (headerAt b).nMessageSize :=
      List.take_append_of_le_length (Nat.le_of_not_lt hsize)
    have hlonger : ¬ (b.drop nHeaderSize ++ c).length < (headerAt b).nMessageSize := by
      rw [List.length_append]
      omega
    rw [if_neg hvalid, if_neg hmax, if_neg hlonger, htake, if_neg hvalid, if_neg hmax, if_neg hsize]
  · rw [if_pos hsum, if_pos hsum]
  · rw [if_neg hsum, if_neg hsum, List.drop_append_of_le_length (Nat.le_of_not_lt hsize)]

/-- The message start has four bytes. -/
theorem getMessageStart_ne_nil (P : Params) : getMessageStart P ≠ [] := by
  intro h
  have hlen := length_getMessageStart P
  rw [h] at hlen
  cases hlen

/-- When a header fits behind it, the message start was found before the end. -/
theorem search_lt (h : ¬ a.length - search (getMessageStart P) a < nHeaderSize) :
    search (getMessageStart P) a < a.length := by
  have hsize : nHeaderSize = 24 := rfl
  omega

/-- With a complete header the scan goes on at the message start. -/
theorem scanMessage_eq (h : ¬ a.length - search (getMessageStart P) a < nHeaderSize) :
    scanMessage P hash a = scanAt P hash (a.drop (search (getMessageStart P) a)) := by
  unfold scanMessage
  dsimp only
  rw [if_neg h]

/-- What stands there is long enough for a header. -/
theorem le_length_drop (h : ¬ a.length - search (getMessageStart P) a < nHeaderSize) :
    nHeaderSize ≤ (a.drop (search (getMessageStart P) a)).length := by
  rw [List.length_drop]
  omega

/-- With a header at hand, more input only makes the front longer. -/
theorem scanMessage_append_eq (h : ¬ a.length - search (getMessageStart P) a < nHeaderSize) :
    scanMessage P hash (a ++ c) = scanAt P hash (a.drop (search (getMessageStart P) a) ++ c) := by
  have hlt := search_lt h
  have hsearch := search_append_of_lt (c := c) hlt
  have hlonger : ¬ (a ++ c).length - search (getMessageStart P) (a ++ c) < nHeaderSize := by
    rw [hsearch, List.length_append]
    omega
  rw [scanMessage_eq hlonger, hsearch, List.drop_append_of_le_length hlt.le]

/-- Without one at most a header's length of bytes is kept. -/
theorem scanMessage_wait (h : a.length - search (getMessageStart P) a < nHeaderSize) :
    scanMessage P hash a = .wait (if nHeaderSize < a.length then a.drop (a.length - nHeaderSize) else a) := by
  unfold scanMessage
  dsimp only
  rw [if_pos h]

/-- The bytes that are dropped when no start is found do not matter. -/
theorem scanMessage_dropped (h : a.length - search (getMessageStart P) a < nHeaderSize)
    (hlong : nHeaderSize < a.length) :
    scanMessage P hash (a ++ c) = scanMessage P hash (a.drop (a.length - nHeaderSize) ++ c) := by
  have hsize : nHeaderSize = 24 := rfl
  have hfour := length_getMessageStart P
  -- `j` is dropped, and `k` may hold the beginning of a start
  obtain ⟨j, k, rfl, hj, hk⟩ : ∃ j k : List UInt8, a = j ++ k ∧ j.length = a.length - nHeaderSize ∧
      k.length = nHeaderSize := by
    refine ⟨a.take (a.length - nHeaderSize), a.drop (a.length - nHeaderSize),
      (List.take_append_drop _ _).symm, ?_, ?_⟩
    · rw [List.length_take]
      omega
    · rw [List.length_drop]
      omega
  have hdrop : (j ++ k).drop ((j ++ k).length - nHeaderSize) = k := by
    rw [← hj]
    exact List.drop_left
  have hle := search_le (getMessageStart P) (j ++ k)
  rw [hdrop, List.append_assoc]
  -- no start begins in `j`, so the search goes on in `k`
  have hsearch : search (getMessageStart P) (j ++ (k ++ c)) =
      j.length + search (getMessageStart P) (k ++ c) := by
    refine search_append_of_le (by omega) ?_
    rw [List.length_append] at h hle
    omega
  unfold scanMessage
  dsimp only
  have hlength : (j ++ (k ++ c)).length = j.length + (k ++ c).length := List.length_append
  have hkc : (k ++ c).length = k.length + c.length := List.length_append
  rw [hsearch, hlength, Nat.add_sub_add_left, List.drop_length_add_append]
  split_ifs with hwait hA hK
  · rw [show j.length + (k ++ c).length - nHeaderSize = j.length + ((k ++ c).length - nHeaderSize) by omega,
      List.drop_length_add_append]
  · -- nothing came: the tail is as long as a header
    rw [show j.length + (k ++ c).length - nHeaderSize = j.length + 0 by omega,
      List.drop_length_add_append, List.drop_zero]
  · rw [List.length_append] at hlong
    omega
  · rw [List.length_append] at hlong
    omega
  · rfl

/-- An incomplete payload leaves the bytes where they are. -/
theorem scanAt_wait_eq (h : scanAt P hash b = .wait rest) : rest = b := by
  unfold scanAt at h
  dsimp only at h
  split_ifs at h
  cases h
  rfl

/-- **The receive loop as a reader.** -/
def messageReader (P : Params) (hash : List UInt8 → Uint256) : Reader UInt8 NetMessage where
  scan := scanMessage P hash
  skip_lt := by
    intro a rest heq
    by_cases h : a.length - search (getMessageStart P) a < nHeaderSize
    · rw [scanMessage_wait h] at heq
      cases heq
    · rw [scanMessage_eq h] at heq
      refine ((scanAt_lt (le_length_drop h)).1 rest heq).trans_le ?_
      rw [List.length_drop]
      omega
  emit_lt := by
    intro a msg rest heq
    by_cases h : a.length - search (getMessageStart P) a < nHeaderSize
    · rw [scanMessage_wait h] at heq
      cases heq
    · rw [scanMessage_eq h] at heq
      refine ((scanAt_lt (le_length_drop h)).2 msg rest heq).trans_le ?_
      rw [List.length_drop]
      omega
  skip_append := by
    intro a rest c heq
    by_cases h : a.length - search (getMessageStart P) a < nHeaderSize
    · rw [scanMessage_wait h] at heq
      cases heq
    · rw [scanMessage_eq h] at heq
      rw [scanMessage_append_eq h, scanAt_append (le_length_drop h) (by simp [heq]), heq]
  emit_append := by
    intro a msg rest c heq
    by_cases h : a.length - search (getMessageStart P) a < nHeaderSize
    · rw [scanMessage_wait h] at heq
      cases heq
    · rw [scanMessage_eq h] at heq
      rw [scanMessage_append_eq h, scanAt_append (le_length_drop h) (by simp [heq]), heq]
  wait_append := by
    intro a rest c heq
    by_cases h : a.length - search (getMessageStart P) a < nHeaderSize
    · rw [scanMessage_wait h] at heq
      cases heq
      split_ifs with hlong
      · exact scanMessage_dropped h hlong
      · rfl
    · -- the header is put back, and is found at the front
      rw [scanMessage_eq h] at heq
      obtain rfl := scanAt_wait_eq heq
      have hfront : search (getMessageStart P) (a.drop (search (getMessageStart P) a)) = 0 :=
        search_eq_zero (getMessageStart_ne_nil P) (prefix_of_search_lt (search_lt h))
      have hagain : ¬ (a.drop (search (getMessageStart P) a)).length -
          search (getMessageStart P) (a.drop (search (getMessageStart P) a)) < nHeaderSize := by
        rw [hfront]
        exact Nat.not_lt.mpr (le_length_drop h)
      rw [scanMessage_append_eq h, scanMessage_append_eq hagain, hfront, List.drop_zero]

end Reader

/-! ### The code -/

/-- `vRecv >> hdr` reads the header and moves on behind it. -/
theorem CMessageHeader.unserialize_eq_ok {s : CDataStream} (h : s.Ok) (hsize : nHeaderSize ≤ s.size) :
    ∃ s', unserialize s = .ok (headerAt s.data, s') ∧ s'.Ok ∧ s'.data = s.data.drop nHeaderSize := by
  have hheader : nHeaderSize = 24 := rfl
  have hcommand : COMMAND_SIZE = 12 := rfl
  -- each of the four fields is read where the one before it ends
  have hadvance : ∀ (s : CDataStream) (n : ℕ), (s.advance n).size = s.size - n := by
    intro s n
    rw [← CDataStream.length_data, ← CDataStream.length_data, CDataStream.advance_spec.2, List.length_drop]
  obtain ⟨ok₁, data₁⟩ := CDataStream.advance_spec (s := s) (n := 4)
  obtain ⟨ok₂, data₂⟩ := CDataStream.advance_spec (s := s.advance 4) (n := COMMAND_SIZE)
  obtain ⟨ok₃, data₃⟩ := CDataStream.advance_spec (s := (s.advance 4).advance COMMAND_SIZE) (n := 4)
  obtain ⟨ok₄, data₄⟩ :=
    CDataStream.advance_spec (s := ((s.advance 4).advance COMMAND_SIZE).advance 4) (n := 4)
  refine ⟨_, ?_, ok₄, ?_⟩
  · unfold unserialize
    rw [CDataStream.read_eq_ok (by omega) h, Result.ok_bind]
    dsimp only
    rw [CDataStream.read_eq_ok (by rw [hadvance]; omega) ok₁, Result.ok_bind]
    dsimp only
    rw [CDataStream.read_eq_ok (by rw [hadvance, hadvance]; omega) ok₂, Result.ok_bind]
    dsimp only
    rw [CDataStream.read_eq_ok (by rw [hadvance, hadvance, hadvance]; omega) ok₃, Result.ok_bind]
    dsimp only
    rw [data₃, data₂, data₁, List.drop_drop, List.drop_drop]
    rfl
  · rw [data₄, data₃, data₂, data₁, List.drop_drop, List.drop_drop, List.drop_drop]
    rfl

namespace RecvState

variable {P : Params} {hash : List UInt8 → Uint256} {closes : List NetMessage → Bool} {s : RecvState}

/-- The stream is in order, and a connection that is closed has nothing in it. -/
structure Ok (s : RecvState) : Prop where
  stream : s.vRecv.Ok
  closed : s.fOpen = false → s.vRecv.data = []

/-- The receive side as a state of the reader. -/
def toReader (s : RecvState) : Reader.State UInt8 NetMessage where
  items := s.dispatched
  rest := s.vRecv.data
  isOpen := s.fOpen

/-- A peer with nothing received. -/
theorem ok_empty : Ok {} := ⟨CDataStream.ok_empty, fun _ => rfl⟩

/-- `ProcessMessage` is what the reader does with one item. -/
theorem toReader_processMessage (closes : List NetMessage → Bool) (msg : NetMessage) (h : s.Ok)
    (hopen : s.fOpen = true) :
    (processMessage closes s msg).Ok ∧ (processMessage closes s msg).toReader =
      if closes (s.dispatched ++ [msg]) then { items := s.dispatched ++ [msg], isOpen := false }
      else { items := s.dispatched ++ [msg], rest := s.vRecv.data } := by
  have hprocess : processMessage closes s msg =
      if closes (s.dispatched ++ [msg]) then
        { vRecv := {}, fOpen := false, dispatched := s.dispatched ++ [msg] }
      else { s with dispatched := s.dispatched ++ [msg] } := by
    unfold processMessage
    dsimp only
    rw [hopen, Bool.and_true]
  rw [hprocess]
  split_ifs
  · exact ⟨⟨CDataStream.ok_empty, fun _ => rfl⟩, rfl⟩
  · refine ⟨⟨h.stream, h.closed⟩, ?_⟩
    unfold toReader
    rw [hopen]

/-- A closed connection has nothing to read. -/
theorem processLoop_closed (P : Params) (hash : List UInt8 → Uint256) (closes : List NetMessage → Bool)
    (h : s.Ok) (hclosed : s.fOpen = false) (n : ℕ) :
    ∃ s', processLoop P hash closes n s = .ok s' ∧ s'.Ok ∧ s'.toReader = s.toReader := by
  cases n with
  | zero => exact ⟨s, rfl, h, rfl⟩
  | succ n =>
    have hsize : s.vRecv.size = 0 := by
      rw [← CDataStream.length_data, h.closed hclosed]
      rfl
    refine ⟨s, ?_, h, rfl⟩
    unfold processLoop
    dsimp only
    rw [hsize, Nat.zero_sub, if_pos (by decide), if_neg (by decide)]

/-- **The loop is a run of the reader.** There are as many rounds as it takes. -/
theorem processLoop_spec (n : ℕ) (h : s.Ok) (hopen : s.fOpen = true) (hn : s.vRecv.size < n) :
    ∃ s', processLoop P hash closes n s = .ok s' ∧ s'.Ok ∧
      s'.toReader = (messageReader P hash).run closes s.dispatched s.vRecv.data := by
  have hheader : nHeaderSize = 24 := rfl
  -- induction on the rounds: each of them takes bytes off the stream
  induction n generalizing s with
  | zero => exact absurd hn (Nat.not_lt_zero _)
  | succ n ih =>
    have hsize := CDataStream.length_data s.vRecv
    have hle := search_le (getMessageStart P) s.vRecv.data
    unfold processLoop
    dsimp only
    rw [← hsize]
    by_cases hwait : s.vRecv.data.length - search (getMessageStart P) s.vRecv.data < nHeaderSize
    · -- there is no header, and the tail is kept
      have hscan : (messageReader P hash).scan s.vRecv.data = .wait _ := scanMessage_wait hwait
      rw [if_pos hwait, Reader.run_wait hscan]
      split_ifs with hlong
      · obtain ⟨hok, hdata⟩ := CDataStream.eraseFront_spec h.stream
          (n := s.vRecv.data.length - nHeaderSize) (by omega)
        refine ⟨_, rfl, ⟨hok, fun hc => absurd (hopen.symm.trans hc) (by simp)⟩, ?_⟩
        unfold toReader
        rw [hdata, hopen]
      · refine ⟨s, rfl, h, ?_⟩
        unfold toReader
        rw [hopen]
    rw [if_neg hwait]
    -- the bytes before the message start are dropped
    obtain ⟨hok₁, hdata₁⟩ := CDataStream.eraseFront_spec h.stream
      (n := search (getMessageStart P) s.vRecv.data) (by omega)
    generalize s.vRecv.eraseFront (search (getMessageStart P) s.vRecv.data) = v₁ at hok₁ hdata₁ ⊢
    have hlen₁ : nHeaderSize ≤ v₁.data.length := by
      rw [hdata₁]
      exact le_length_drop hwait
    -- the header is read
    obtain ⟨v₂, hread, hok₂, hdata₂⟩ := CMessageHeader.unserialize_eq_ok hok₁
      (by rw [← CDataStream.length_data]; exact hlen₁)
    rw [hread, Result.ok_bind]
    dsimp only
    have hscan : (messageReader P hash).scan s.vRecv.data = scanAt P hash v₁.data := by
      rw [hdata₁]
      exact scanMessage_eq hwait
    have hlen₂ : v₂.size = v₁.data.length - nHeaderSize := by
      rw [← CDataStream.length_data, hdata₂, List.length_drop]
    have hlen : v₁.data.length ≤ s.vRecv.data.length := by
      rw [hdata₁, List.length_drop]
      omega
    -- the state behind the header, when the loop goes on
    have hskip : (messageReader P hash).scan s.vRecv.data = .skip (v₁.data.drop nHeaderSize) →
        ∃ s', processLoop P hash closes n { s with vRecv := v₂ } = .ok s' ∧ s'.Ok ∧
          s'.toReader = (messageReader P hash).run closes s.dispatched s.vRecv.data := by
      intro hskip
      rw [Reader.run_skip hskip, ← hdata₂]
      exact ih ⟨hok₂, fun hc => absurd (hopen.symm.trans hc) (by simp)⟩ hopen (by
        dsimp only
        omega)
    -- the four ways that a scan can end
    unfold scanAt at hscan
    dsimp only at hscan
    rw [← hdata₂] at hscan hskip
    rw [CDataStream.length_data] at hscan
    split_ifs at hscan ⊢ with hvalid hmax hpayload hsum
    · -- an invalid header, or one that announces too much, is skipped
      exact hskip hscan
    · exact hskip hscan
    · -- the header goes back to the front
      obtain ⟨hok₃, hdata₃⟩ := CDataStream.insertFront_spec hok₂ (v₁.data.take nHeaderSize)
      refine ⟨_, rfl, ⟨hok₃, fun hc => absurd (hopen.symm.trans hc) (by simp)⟩, ?_⟩
      rw [Reader.run_wait hscan]
      unfold toReader
      rw [hdata₃, hdata₂, List.take_append_drop, hopen]
    · -- so is a payload with a wrong checksum
      exact hskip hscan
    · -- the payload is there: the message is handed to `ProcessMessage`
      obtain ⟨hok₃, hdata₃⟩ := CDataStream.advance_spec (s := v₂) (n := (headerAt v₁.data).nMessageSize)
      rw [CDataStream.ignore_eq_ok (Nat.le_of_not_lt hpayload) hok₂, Result.ok_bind, Reader.run_emit hscan]
      obtain ⟨hok, hreader⟩ := toReader_processMessage closes
        ⟨(headerAt v₁.data).getCommand, v₂.data.take (headerAt v₁.data).nMessageSize⟩
        (s := { s with vRecv := v₂.advance (headerAt v₁.data).nMessageSize })
        ⟨hok₃, fun hc => absurd (hopen.symm.trans hc) (by simp)⟩ hopen
      dsimp only at hok hreader ⊢
      -- which may close the connection
      split_ifs at hreader ⊢ with hcloses
      · obtain ⟨s', hs', hok', hreader'⟩ := processLoop_closed P hash closes hok
          (congrArg Reader.State.isOpen hreader) n
        exact ⟨s', hs', hok', hreader'.trans hreader⟩
      · have hrest := congrArg Reader.State.rest hreader
        have hitems := congrArg Reader.State.items hreader
        dsimp only [toReader] at hrest hitems
        rw [← hdata₃, ← hrest, ← hitems]
        refine ih hok (congrArg Reader.State.isOpen hreader) ?_
        rw [← CDataStream.length_data, hrest, hdata₃, List.length_drop, CDataStream.length_data]
        omega

/-- With no bytes there is nothing to read. -/
theorem scan_nil (P : Params) (hash : List UInt8 → Uint256) : (messageReader P hash).scan [] = .wait [] :=
  rfl

/-- **`ProcessMessages`** is one run of the abstract reader over the buffer. -/
theorem processMessages_spec (h : s.Ok) (hopen : s.fOpen = true) :
    ∃ s', processMessages P hash closes s = .ok s' ∧ s'.Ok ∧
      s'.toReader = (messageReader P hash).run closes s.dispatched s.vRecv.data := by
  unfold processMessages
  by_cases hempty : s.vRecv.size = 0
  · -- an empty buffer is not looked at
    have hnil : s.vRecv.data = [] := by
      rw [← List.length_eq_zero_iff, CDataStream.length_data]
      exact hempty
    refine ⟨s, if_pos hempty, h, ?_⟩
    rw [hnil, Reader.run_wait (scan_nil P hash)]
    unfold toReader
    rw [hopen, hnil]
  · obtain ⟨s', hs', hok', hrun⟩ := processLoop_spec (s.vRecv.size + 1) h hopen (Nat.lt_succ_self _)
    rw [if_neg hempty, hs', Result.ok_bind]
    obtain ⟨hok₂, hdata₂⟩ := CDataStream.compact_spec (s := s'.vRecv)
    refine ⟨_, rfl, ⟨hok₂, fun hc => hdata₂.trans (hok'.closed hc)⟩, ?_⟩
    rw [← hrun]
    unfold toReader
    rw [hdata₂]

/-- **A chunk** is fed to the reader. -/
theorem receive_spec (P : Params) (hash : List UInt8 → Uint256) (closes : List NetMessage → Bool)
    (h : s.Ok) (chunk : List UInt8) :
    ∃ s', receive P hash closes s chunk = .ok s' ∧ s'.Ok ∧
      s'.toReader = (messageReader P hash).feed closes s.toReader chunk := by
  unfold receive Reader.feed
  by_cases hopen : s.fOpen = true
  · obtain ⟨hok, hdata⟩ := CDataStream.write_spec h.stream chunk
    have hreader : s.toReader.isOpen = true := hopen
    have hwritten : ({ s with vRecv := s.vRecv.write chunk } : RecvState).Ok :=
      ⟨hok, fun hc => absurd (hopen.symm.trans hc) (by simp)⟩
    obtain ⟨s', hs', hok', hrun⟩ := processMessages_spec hwritten hopen
    rw [if_pos hopen, if_pos hreader]
    refine ⟨s', hs', hok', ?_⟩
    rw [hrun, hdata]
    rfl
  · -- a closed connection has nothing to read
    have hclosed : s.fOpen = false := Bool.eq_false_iff.mpr hopen
    have hsize : s.vRecv.size = 0 := by
      rw [← CDataStream.length_data, h.closed hclosed]
      rfl
    have hreader : ¬ s.toReader.isOpen = true := hopen
    rw [if_neg hopen, if_neg hreader]
    exact ⟨s, if_pos hsize, h, rfl⟩

/-- The chunks arrive one after the other at a new connection. -/
def receiveAll (P : Params) (hash : List UInt8 → Uint256) (closes : List NetMessage → Bool)
    (chunks : List (List UInt8)) : Result RecvState :=
  chunks.foldlM (receive P hash closes) {}

/-- And so is a row of chunks, by induction on the row. -/
theorem foldlM_receive (h : s.Ok) (chunks : List (List UInt8)) :
    ∃ s', chunks.foldlM (receive P hash closes) s = .ok s' ∧ s'.Ok ∧
      s'.toReader = chunks.foldl ((messageReader P hash).feed closes) s.toReader := by
  induction chunks generalizing s with
  | nil => exact ⟨s, rfl, h, rfl⟩
  | cons chunk chunks ih =>
    obtain ⟨s₁, hs₁, hok₁, hreader₁⟩ := receive_spec P hash closes h chunk
    obtain ⟨s', hs', hok', hreader'⟩ := ih hok₁
    refine ⟨s', ?_, hok', ?_⟩
    · rw [List.foldlM_cons, hs₁]
      exact hs'
    · rw [hreader', hreader₁, List.foldl_cons]

/-- The chunks are read as the bytes they make up. -/
theorem receiveAll_eq (P : Params) (hash : List UInt8 → Uint256) (closes : List NetMessage → Bool)
    (chunks : List (List UInt8)) :
    ∃ s, receiveAll P hash closes chunks = .ok s ∧
      s.dispatched = ((messageReader P hash).run closes [] chunks.flatten).items := by
  have hstart : toReader {} = (messageReader P hash).run closes [] [] := by
    rw [Reader.run_wait (scan_nil P hash)]
    rfl
  obtain ⟨s, hs, -, hreader⟩ := foldlM_receive ok_empty chunks
  refine ⟨s, hs, ?_⟩
  rw [hstart, Reader.foldl_feed, ← Reader.run_append, List.nil_append] at hreader
  exact congrArg Reader.State.items hreader

end RecvState

/-! ### What is sent -/

/-- The four bytes of a 32-bit number. -/
theorem ofBytes32_toBytes32 {n : ℕ} (h : n < 2 ^ 32) : ofBytes32 (toBytes32 n) = n := by
  unfold toBytes32 ofBytes32
  simp only [UInt8.toNat_ofNat']
  omega

/-- There are four of them. -/
theorem length_toBytes32 (n : ℕ) : (toBytes32 n).length = 4 := rfl

/-- Commands as the program uses them, and a payload that is not too large. -/
structure NetMessage.Sendable (msg : NetMessage) : Prop where
  short : msg.command.length ≤ COMMAND_SIZE
  printable : ∀ c ∈ msg.command, 0x20 ≤ c ∧ c ≤ 0x7E
  small : msg.payload.length ≤ MAX_SIZE

/-- The bytes of a message. -/
def NetMessage.frame (P : Params) (hash : List UInt8 → Uint256) (msg : NetMessage) : List UInt8 :=
  getMessageStart P ++ padCommand msg.command ++ toBytes32 msg.payload.length ++
    toBytes32 (SendState.nChecksum hash msg.payload) ++ msg.payload

namespace CMessageHeader

/-- The command field has twelve bytes. -/
theorem length_padCommand (pszCommand : List UInt8) : (padCommand pszCommand).length = COMMAND_SIZE := by
  unfold padCommand
  rw [List.length_take, List.length_append, List.length_replicate]
  omega

/-- A short command is filled up with zeros. -/
theorem padCommand_eq {pszCommand : List UInt8} (h : pszCommand.length ≤ COMMAND_SIZE) :
    padCommand pszCommand = pszCommand ++ List.replicate (COMMAND_SIZE - pszCommand.length) 0 := by
  unfold padCommand
  rw [List.take_append, List.take_of_length_le h, List.take_replicate, Nat.min_eq_left (Nat.sub_le _ _)]

/-- A printable character is not the padding. -/
theorem ne_zero_of_printable {c : UInt8} (h : 0x20 ≤ c) : c ≠ 0 := by
  rintro rfl
  exact absurd h (by decide)

/-- A printable command with its padding is valid. -/
theorem commandOk_append {command : List UInt8} (h : ∀ c ∈ command, 0x20 ≤ c ∧ c ≤ 0x7E) (n : ℕ) :
    commandOk (command ++ List.replicate n 0) = true := by
  induction command with
  | nil =>
    cases n with
    | zero => rfl
    | succ n =>
      rw [List.nil_append, List.replicate_succ]
      unfold commandOk
      rw [if_pos rfl, List.all_eq_true]
      intro c hc
      rw [List.eq_of_mem_replicate hc]
      rfl
  | cons c command ih =>
    obtain ⟨⟨hlow, hhigh⟩, hcommand⟩ := List.forall_mem_cons.mp h
    rw [List.cons_append]
    unfold commandOk
    rw [if_neg (ne_zero_of_printable hlow), ih hcommand]
    simp [hlow, hhigh]

/-- `GetCommand` cuts the padding off. -/
theorem takeWhile_append {command : List UInt8} (h : ∀ c ∈ command, 0x20 ≤ c ∧ c ≤ 0x7E) (n : ℕ) :
    (command ++ List.replicate n 0).takeWhile (· ≠ 0) = command := by
  induction command with
  | nil =>
    cases n with
    | zero => rfl
    | succ n => rfl
  | cons c command ih =>
    obtain ⟨⟨hlow, -⟩, hcommand⟩ := List.forall_mem_cons.mp h
    rw [List.cons_append, List.takeWhile_cons, if_pos (by simpa using ne_zero_of_printable hlow), ih hcommand]

/-- The command that was put into a header comes out again. -/
theorem getCommand_of_padded {hdr : CMessageHeader} {command : List UInt8}
    (h : hdr.pchCommand = padCommand command) (hshort : command.length ≤ COMMAND_SIZE)
    (hprintable : ∀ c ∈ command, 0x20 ≤ c ∧ c ≤ 0x7E) : hdr.getCommand = command := by
  unfold getCommand
  rw [h, padCommand_eq hshort]
  split_ifs with hzero
  · exact takeWhile_append hprintable _
  · -- no zero is behind a command of full length
    have hfull : COMMAND_SIZE - command.length = 0 := by
      by_contra hpos
      apply hzero
      have hlast : COMMAND_SIZE - 1 < (command ++ List.replicate (COMMAND_SIZE - command.length) 0).length := by
        rw [List.length_append, List.length_replicate]
        omega
      rw [List.getElem?_eq_getElem hlast, List.getElem_append_right (by omega), List.getElem_replicate]
    rw [hfull, List.replicate_zero, List.append_nil]

end CMessageHeader

section Sending

variable {P : Params} {hash : List UInt8 → Uint256} {msg : NetMessage}

/-- A checksum has four bytes. -/
theorem SendState.nChecksum_lt (hash : List UInt8 → Uint256) (payload : List UInt8) :
    nChecksum hash payload < 2 ^ 32 := Nat.mod_lt _ (by decide)

/-- The header of a frame is read back. -/
theorem headerAt_frame (h : msg.Sendable) (c : List UInt8) :
    headerAt (msg.frame P hash ++ c) =
      ⟨getMessageStart P, padCommand msg.command, msg.payload.length, SendState.nChecksum hash msg.payload⟩ ∧
    (msg.frame P hash ++ c).drop nHeaderSize = msg.payload ++ c := by
  have hstart := length_getMessageStart P
  have hcommand := length_padCommand msg.command
  have hsmall : msg.payload.length < 2 ^ 32 := h.small.trans_lt (by decide)
  have hsum := SendState.nChecksum_lt hash msg.payload
  -- the frame, with its parts to the right of each other
  have hframe : msg.frame P hash ++ c = getMessageStart P ++ (padCommand msg.command ++
      (toBytes32 msg.payload.length ++ (toBytes32 (SendState.nChecksum hash msg.payload) ++
        (msg.payload ++ c)))) := by
    unfold NetMessage.frame
    simp only [List.append_assoc]
  have hdrop₄ : (msg.frame P hash ++ c).drop 4 = padCommand msg.command ++
      (toBytes32 msg.payload.length ++ (toBytes32 (SendState.nChecksum hash msg.payload) ++
        (msg.payload ++ c))) := by
    rw [hframe, List.drop_left' hstart]
  have hdrop₁₆ : (msg.frame P hash ++ c).drop 16 = toBytes32 msg.payload.length ++
      (toBytes32 (SendState.nChecksum hash msg.payload) ++ (msg.payload ++ c)) := by
    rw [show (16 : ℕ) = 4 + COMMAND_SIZE from rfl, ← List.drop_drop, hdrop₄, List.drop_left' hcommand]
  have hdrop₂₀ : (msg.frame P hash ++ c).drop 20 =
      toBytes32 (SendState.nChecksum hash msg.payload) ++ (msg.payload ++ c) := by
    rw [show (20 : ℕ) = 16 + 4 from rfl, ← List.drop_drop, hdrop₁₆, List.drop_left' (length_toBytes32 _)]
  refine ⟨?_, ?_⟩
  · unfold headerAt
    rw [hdrop₄, hdrop₁₆, hdrop₂₀, List.take_left' hcommand, List.take_left' (length_toBytes32 _),
      List.take_left' (length_toBytes32 _), ofBytes32_toBytes32 hsmall, ofBytes32_toBytes32 hsum, hframe,
      List.take_left' hstart]
  · rw [show nHeaderSize = 20 + 4 from rfl, ← List.drop_drop, hdrop₂₀, List.drop_left' (length_toBytes32 _)]

/-- The length of a frame. -/
theorem length_frame (msg : NetMessage) :
    (msg.frame P hash).length = nHeaderSize + msg.payload.length := by
  unfold NetMessage.frame
  rw [List.length_append, List.length_append, List.length_append, List.length_append,
    length_getMessageStart, length_padCommand]
  rfl

/-- **A message in front** is taken off as it was sent. -/
theorem scanMessage_frame (h : msg.Sendable) (c : List UInt8) :
    scanMessage P hash (msg.frame P hash ++ c) = .emit msg c := by
  have hpre : getMessageStart P <+: msg.frame P hash ++ c := by
    unfold NetMessage.frame
    simp only [List.append_assoc]
    exact List.prefix_append _ _
  -- the start is found at once
  have hsearch := search_eq_zero (getMessageStart_ne_nil P) hpre
  have hlen : ¬ (msg.frame P hash ++ c).length - search (getMessageStart P) (msg.frame P hash ++ c) <
      nHeaderSize := by
    rw [hsearch, List.length_append, length_frame]
    omega
  obtain ⟨hheader, hrest⟩ := headerAt_frame (P := P) h c
  rw [scanMessage_eq hlen, hsearch, List.drop_zero]
  unfold scanAt
  dsimp only
  rw [hheader, hrest]
  -- the header that was sent is valid
  have hvalid : (!(⟨getMessageStart P, padCommand msg.command, msg.payload.length,
      SendState.nChecksum hash msg.payload⟩ : CMessageHeader).isValid P) = false := by
    unfold isValid
    rw [padCommand_eq h.short, commandOk_append h.printable]
    simp [h.small]
  -- and the payload is complete, whatever comes behind it
  have hcomplete : ¬ (msg.payload ++ c).length < msg.payload.length := by
    rw [List.length_append]
    omega
  rw [hvalid, if_neg (by simp), getCommand_of_padded rfl h.short h.printable]
  dsimp only
  rw [if_neg (Nat.not_lt.mpr h.small), if_neg hcomplete, List.take_left, if_neg (by simp), List.drop_left]

/-- Fields in the middle of a stream. -/
theorem CDataStream.overwrite_middle {s : CDataStream} (h : s.Ok) (bytes : List UInt8)
    {a old b : List UInt8} {pos : ℕ} (hdata : s.data = a ++ (old ++ b)) (hpos : a.length = pos)
    (hlen : old.length = bytes.length) :
    (s.overwrite pos bytes).Ok ∧ (s.overwrite pos bytes).data = a ++ (bytes ++ b) := by
  have hsize : pos + bytes.length ≤ s.size := by
    rw [← length_data, hdata, List.length_append, List.length_append]
    omega
  obtain ⟨hok, hwritten⟩ := overwrite_spec h hsize
  refine ⟨hok, ?_⟩
  have htail : (a ++ (old ++ b)).drop (pos + bytes.length) = b := by
    rw [← List.drop_drop, List.drop_left' hpos, List.drop_left' hlen]
  rw [hwritten, hdata, List.take_left' hpos, htail, List.append_assoc]

namespace SendState

/-- No message is being built. -/
structure Idle (s : SendState) : Prop where
  stream : s.vSend.Ok
  header : s.nHeaderStart = none
  message : s.nMessageStart = none

/-- Nothing is being sent at the start. -/
theorem idle_empty : Idle {} := ⟨CDataStream.ok_empty, rfl, rfl⟩

/-- `BeginMessage` and the payload: the header still says nothing about it. -/
theorem beginMessage_spec {s : SendState} (h : s.Idle) (msg : NetMessage) :
    let s' := s.beginMessage P msg.command
    s'.nHeaderStart = some s.vSend.data.length ∧
    s'.nMessageStart = some (s.vSend.data.length + nHeaderSize) ∧
    (s'.vSend.write msg.payload).Ok ∧
    (s'.vSend.write msg.payload).data = s.vSend.data ++ (getMessageStart P ++ (padCommand msg.command ++
      (toBytes32 0 ++ (toBytes32 0 ++ msg.payload)))) := by
  have hnone : ¬ s.nHeaderStart.isSome = true := by rw [h.header]; simp
  -- the header that is written has its whole size, so the payload begins behind it
  have hlen : (ofCommand P msg.command 0).serialize.length = nHeaderSize := by
    unfold serialize ofCommand
    dsimp only
    rw [List.length_append, List.length_append, List.length_append, length_getMessageStart,
      length_padCommand]
    rfl
  obtain ⟨hok, hdata⟩ := CDataStream.write_spec h.stream (ofCommand P msg.command 0).serialize
  obtain ⟨hok', hdata'⟩ := CDataStream.write_spec hok msg.payload
  unfold beginMessage
  dsimp only
  rw [if_neg hnone]
  refine ⟨?_, ?_, hok', ?_⟩
  · rw [CDataStream.length_data]
  · rw [← CDataStream.length_data, hdata, List.length_append, hlen]
  · rw [hdata', hdata]
    unfold serialize ofCommand
    simp only [List.append_assoc]

/-- **`PushMessage`** puts the frame behind what is there. -/
theorem pushMessage_spec (P : Params) (hash : List UInt8 → Uint256) {s : SendState} (h : s.Idle)
    (hmsg : msg.Sendable) :
    (s.pushMessage P hash false msg).Idle ∧
      (s.pushMessage P hash false msg).vSend.data = s.vSend.data ++ msg.frame P hash := by
  obtain ⟨hheader, hmessage, hok, hdata⟩ := beginMessage_spec (P := P) h msg
  have hstart := length_getMessageStart P
  have hcommand := length_padCommand msg.command
  unfold pushMessage endMessage
  dsimp only
  rw [if_neg (by simp), hheader, hmessage]
  generalize (s.beginMessage P msg.command).vSend.write msg.payload = vSend at hok hdata ⊢
  generalize s.vSend.data = sent at hdata ⊢
  dsimp only
  have hsize : (vSend.size - (sent.length + nHeaderSize)) % 2 ^ 32 = msg.payload.length := by
    have hsmall : msg.payload.length < 2 ^ 32 := hmsg.small.trans_lt (by decide)
    have hlen : vSend.size = sent.length + nHeaderSize + msg.payload.length := by
      rw [← CDataStream.length_data, hdata]
      simp only [List.length_append, hstart, hcommand, length_toBytes32]
      unfold nHeaderSize
      omega
    rw [hlen, Nat.add_sub_cancel_left, Nat.mod_eq_of_lt hsmall]
  -- it is written into the header
  rw [hsize]
  -- the size
  have hpos₁₆ : (sent ++ (getMessageStart P ++ padCommand msg.command)).length = sent.length + 16 := by
    rw [List.length_append, List.length_append, hstart, hcommand]
    rfl
  obtain ⟨hok₁, hdata₁⟩ := CDataStream.overwrite_middle hok (toBytes32 msg.payload.length)
    (by rw [hdata]; simp only [List.append_assoc]; rfl) hpos₁₆ (length_toBytes32 0)
  generalize vSend.overwrite (sent.length + 16) (toBytes32 msg.payload.length) = vSend₁ at hok₁ hdata₁ ⊢
  -- the checksum is taken behind the header
  have hpayload : vSend₁.data.drop (sent.length + nHeaderSize) = msg.payload := by
    have hhead : (sent ++ (getMessageStart P ++ padCommand msg.command) ++
        (toBytes32 msg.payload.length ++ toBytes32 0)).length = sent.length + nHeaderSize := by
      rw [List.length_append, hpos₁₆]
      rfl
    rw [hdata₁, ← List.append_assoc (toBytes32 msg.payload.length), ← List.append_assoc,
      List.drop_left' hhead]
  rw [hpayload]
  have hpos₂₀ : (sent ++ (getMessageStart P ++ padCommand msg.command) ++
      toBytes32 msg.payload.length).length = sent.length + 20 := by
    rw [List.length_append, hpos₁₆]
    rfl
  obtain ⟨hok₂, hdata₂⟩ := CDataStream.overwrite_middle hok₁ (toBytes32 (nChecksum hash msg.payload))
    (by rw [hdata₁, ← List.append_assoc]) hpos₂₀ (length_toBytes32 0)
  refine ⟨⟨hok₂, rfl, rfl⟩, ?_⟩
  rw [hdata₂]
  unfold NetMessage.frame
  simp only [List.append_assoc]

/-- The messages that a node sends over a new connection. -/
def pushAll (P : Params) (hash : List UInt8 → Uint256) (msgs : List NetMessage) : SendState :=
  msgs.foldl (fun s msg => s.pushMessage P hash false msg) {}

/-- What a row of `PushMessage` sends is the row of frames. -/
theorem foldl_pushMessage {msgs : List NetMessage} (hmsgs : ∀ msg ∈ msgs, msg.Sendable) {s : SendState}
    (h : s.Idle) :
    (msgs.foldl (fun s msg => s.pushMessage P hash false msg) s).vSend.data =
      s.vSend.data ++ msgs.flatMap (NetMessage.frame P hash) := by
  induction msgs generalizing s with
  | nil => rw [List.flatMap_nil, List.append_nil, List.foldl_nil]
  | cons msg msgs ih =>
    obtain ⟨hmsg, hrest⟩ := List.forall_mem_cons.mp hmsgs
    obtain ⟨hidle, hdata⟩ := pushMessage_spec P hash h hmsg
    rw [List.foldl_cons, ih hrest hidle, hdata, List.flatMap_cons, List.append_assoc]

/-- What is sent is the frames of the messages. -/
theorem pushAll_spec {msgs : List NetMessage} (hmsgs : ∀ msg ∈ msgs, msg.Sendable) :
    (pushAll P hash msgs).vSend.data = msgs.flatMap (NetMessage.frame P hash) :=
  foldl_pushMessage hmsgs idle_empty

end SendState

end Sending

/-! ### Both ends -/

section Connection

variable (P : Params) (hash : List UInt8 → Uint256) (closes : List NetMessage → Bool)

/-- The messages arrive, up to the first that closes the connection. -/
theorem receiveAll_pushAll {msgs : List NetMessage} (hmsgs : ∀ msg ∈ msgs, msg.Sendable)
    {chunks : List (List UInt8)} (h : chunks.flatten = (SendState.pushAll P hash msgs).vSend.data) :
    ∃ s, RecvState.receiveAll P hash closes chunks = .ok s ∧
      s.dispatched = (Reader.upToClosing (α := UInt8) closes [] msgs).items := by
  obtain ⟨s, hs, hitems⟩ := RecvState.receiveAll_eq P hash closes chunks
  refine ⟨s, hs, ?_⟩
  have hscan : ∀ msg ∈ msgs, ∀ c, (messageReader P hash).scan (msg.frame P hash ++ c) = .emit msg c :=
    fun msg hmem c => scanMessage_frame (hmsgs msg hmem) c
  rw [hitems, h, SendState.pushAll_spec hmsgs, Reader.run_encode (RecvState.scan_nil P hash) hscan]

end Connection

/-- **Framing.** Chunks are read as the bytes they make up, and the messages of the other side are
dispatched once each and in order, up to the first whose processing closes the connection. -/
theorem receiveAll_spec (P : Params) (hash : List UInt8 → Uint256) (closes : List NetMessage → Bool) :
    (∀ chunks, ∃ s s', RecvState.receiveAll P hash closes chunks = .ok s ∧
      RecvState.receiveAll P hash closes [chunks.flatten] = .ok s' ∧ s.dispatched = s'.dispatched) ∧
    ∀ msgs chunks, (∀ msg ∈ msgs, NetMessage.Sendable msg) →
      chunks.flatten = (SendState.pushAll P hash msgs).vSend.data →
      ∃ s, RecvState.receiveAll P hash closes chunks = .ok s ∧
        ∃ n ≤ msgs.length, s.dispatched = msgs.take n ∧
          (∀ m, 0 < m → m < n → closes (msgs.take m) = false) ∧
          (n = msgs.length ∨ 0 < n ∧ closes (msgs.take n) = true) := by
  refine ⟨?_, ?_⟩
  · intro chunks
    obtain ⟨s, hs, hitems⟩ := RecvState.receiveAll_eq P hash closes chunks
    obtain ⟨s', hs', hitems'⟩ := RecvState.receiveAll_eq P hash closes [chunks.flatten]
    refine ⟨s, s', hs, hs', ?_⟩
    rw [hitems, hitems', List.flatten_singleton]
  · intro msgs chunks hmsgs hsent
    obtain ⟨s, hs, hitems⟩ := receiveAll_pushAll P hash closes hmsgs hsent
    obtain ⟨n, hn, htake, hbefore, hlast⟩ := Reader.upToClosing_items (α := UInt8) closes [] msgs
    refine ⟨s, hs, n, hn, hitems.trans htake, hbefore, hlast⟩

namespace Sample

/-- `Hash` of no bytes. -/
def hashEmpty : Uint256 := 0x56944c5d3f98413ef45cf54545538103cc9f298e0575820ad3591376e2e0f65d

def verack : NetMessage := ⟨[0x76, 0x65, 0x72, 0x61, 0x63, 0x6b], []⟩

def getaddr : NetMessage := ⟨[0x67, 0x65, 0x74, 0x61, 0x64, 0x64, 0x72], []⟩

/-- A command of thirteen letters. -/
def longCommand : NetMessage := ⟨List.replicate 13 0x61, []⟩

/-- A command with a tab in it. -/
def tabCommand : NetMessage := ⟨[0x61, 0x09], []⟩

/-- `verack` is a command of printable characters. -/
theorem verack_sendable : verack.Sendable := ⟨by decide, by decide +kernel, by decide⟩

/-- So is `getaddr`. -/
theorem getaddr_sendable : getaddr.Sendable := ⟨by decide, by decide +kernel, by decide⟩

/-- A peer that did not send its version gets a point for every message; 100 points close the
connection. -/
def noVersion (dispatched : List NetMessage) : Bool := 100 ≤ dispatched.length

end Sample

open Sample in
/-- Two messages in three chunks, cut inside a marker and inside a header. -/
theorem receiveAll_spec_twoMessages :
    let sent := (SendState.pushAll params (fun _ => hashEmpty) [verack, getaddr]).vSend.data
    ∃ s, RecvState.receiveAll params (fun _ => hashEmpty) noVersion
      [sent.take 2, (sent.drop 2).take 30, (sent.drop 2).drop 30] = .ok s ∧
      s.dispatched = [verack, getaddr] := by
  intro sent
  have hmsgs : ∀ msg ∈ [verack, getaddr], msg.Sendable := by
    intro msg hmem
    rcases List.mem_pair.mp hmem with rfl | rfl
    · exact verack_sendable
    · exact getaddr_sendable
  -- the chunks are what was sent
  have hsent : [sent.take 2, (sent.drop 2).take 30, (sent.drop 2).drop 30].flatten = sent := by
    rw [List.flatten_cons, List.flatten_cons, List.flatten_singleton, List.take_append_drop,
      List.take_append_drop]
  obtain ⟨s, hs, n, hn, htake, -, hlast⟩ := (receiveAll_spec params (fun _ => hashEmpty) noVersion).2
    [verack, getaddr] _ hmsgs hsent
  refine ⟨s, hs, ?_⟩
  -- the connection was not closed before the second message
  have hlen : n = 2 := by
    rcases hlast with hlast | ⟨-, hlast⟩
    · exact hlast
    · have hmany : 100 ≤ ([verack, getaddr].take n).length := of_decide_eq_true hlast
      have hfew : ([verack, getaddr].take n).length ≤ 2 := List.length_take_le' n _
      omega
  rw [htake, hlen]
  rfl

open Sample in
/-- Messages that are not dispatched as they were sent: the one behind the message that closes the
connection, and those with a command that is too long or not printable. -/
theorem receiveAll_closed :
    (∃ s, RecvState.receiveAll params (fun _ => hashEmpty) noVersion
      [(SendState.pushAll params (fun _ => hashEmpty) (List.replicate 101 verack)).vSend.data] = .ok s ∧
      s.dispatched = List.replicate 100 verack) ∧
    (RecvState.receiveAll params (fun _ => hashEmpty) noVersion
      [(SendState.pushAll params (fun _ => hashEmpty) [longCommand]).vSend.data]).map (·.dispatched) =
        .ok [⟨List.replicate 12 0x61, []⟩] ∧
    (RecvState.receiveAll params (fun _ => hashEmpty) noVersion
      [(SendState.pushAll params (fun _ => hashEmpty) [tabCommand]).vSend.data]).map (·.dispatched) =
        .ok [] := by
  refine ⟨?_, by decide, by decide⟩
  have hmsgs : ∀ msg ∈ List.replicate 101 verack, msg.Sendable := by
    intro msg hmem
    rw [List.eq_of_mem_replicate hmem]
    exact verack_sendable
  obtain ⟨s, hs, hitems⟩ := receiveAll_pushAll params (fun _ => hashEmpty) noVersion hmsgs
    (List.flatten_singleton (l := _))
  exact ⟨s, hs, hitems.trans (by decide)⟩

end Peershares
