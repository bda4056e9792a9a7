import Peershares.Model.Wire
import Peershares.Relay.Framing

/-!
# Transactions and blocks survive the wire

What `Serialize` writes is a code in the sense of `Framework.Codec`, so it determines the value. `Unserialize`
reads the code back from a stream, in whatever blocks and batches (`Reads`), as long as the position of the
stream does not leave the range of an `unsigned int`; and `GetSerializeSize` is the length of the code, as an
`unsigned int`. So a value survives exactly when its code has less than 2^32 bytes.

* `Reads.bind`, `Reads.blocks`, `Reads.batches` — reading in parts
* `CTransaction.codec`, `CBlock.codec` — the codes
* `serialize_roundTrips_iff` — the round trip
-/

open Framework

namespace Peershares

/-! ### Reading in parts -/

/-- From a stream with `bytes` in front, `r` reads the value `a` and leaves what is behind them. -/
def Reads {α : Type} (r : StreamReader α) (a : α) (bytes : List UInt8) : Prop :=
  ∀ (s : CDataStream) (rest : List UInt8), s.Ok → s.data = bytes ++ rest →
    s.nReadPos + bytes.length < 2 ^ 32 →
    ∃ s', r s = .ok (a, s') ∧ s'.Ok ∧ s'.data = rest ∧ s'.nReadPos ≤ s.nReadPos + bytes.length

namespace Reads

variable {α β : Type} {r : StreamReader α} {a : α} {b : β} {code code' : List UInt8}

/-- A reader that reads nothing. -/
theorem pure (a : α) : Reads (Pure.pure a) a [] :=
  fun s _ hok hdata _ => ⟨s, rfl, hok, hdata, by simp⟩

/-- One value behind the other. -/
theorem bind {k : α → StreamReader β} (h : Reads r a code) (h' : Reads (k a) b code') :
    Reads (r >>= k) b (code ++ code') := by
  intro s rest hok hdata hpos
  rw [List.append_assoc] at hdata
  rw [List.length_append] at hpos
  obtain ⟨s₁, hrun, hok₁, hdata₁, hpos₁⟩ := h s (code' ++ rest) hok hdata (by omega)
  obtain ⟨s₂, hrun', hok₂, hdata₂, hpos₂⟩ := h' s₁ rest hok₁ hdata₁ (by omega)
  refine ⟨s₂, ?_, hok₂, hdata₂, ?_⟩
  · show (r s >>= fun p => k p.1 p.2) = _
    rw [hrun, Result.ok_bind]
    exact hrun'
  · rw [List.length_append]
    omega

/-- A value that is computed from the one read. -/
theorem map {f : α → β} (h : Reads r a code) : Reads (r >>= fun a => Pure.pure (f a)) (f a) code := by
  have hbind := h.bind (k := fun a => Pure.pure (f a)) (pure (f a))
  rwa [List.append_nil] at hbind

/-- `read` of a number of bytes. -/
theorem read {n : ℕ} (h : code.length = n) : Reads (StreamReader.read n) code code := by
  intro s rest hok hdata hpos
  have hlen : s.vch.length = s.nReadPos + (n + rest.length) := by
    have hsize := congrArg List.length hdata
    rw [List.length_append, h, CDataStream.data, List.length_drop] at hsize
    unfold CDataStream.Ok at hok
    omega
  have hmod : (s.nReadPos + n) % 2 ^ 32 = s.nReadPos + n := Nat.mod_eq_of_lt (by omega)
  have htake : (s.vch.drop s.nReadPos).take n = code := by
    rw [← CDataStream.data, hdata, ← h, List.take_left']
    rfl
  have hdrop : s.vch.drop (s.nReadPos + n) = rest := by
    rw [← List.drop_drop, ← CDataStream.data, hdata, ← h, List.drop_left']
    rfl
  unfold StreamReader.read
  simp only [hmod, htake]
  rw [if_neg (by omega)]
  split_ifs with hend
  · -- at the end the buffer is cleared
    have hrest : rest = [] := List.length_eq_zero_iff.mp (by omega)
    exact ⟨{}, rfl, CDataStream.ok_empty, hrest.symm, Nat.zero_le _⟩
  · refine ⟨{ s with nReadPos := s.nReadPos + n }, rfl, ?_, hdrop, by rw [h]⟩
    show s.nReadPos + n ≤ s.vch.length
    omega

/-- An unsigned integer of `w` bytes. -/
theorem uint {w n : ℕ} (h : n < 256 ^ w) : Reads (StreamReader.uint w) n (toLeBytes w n) := by
  have hread := (read (length_toLeBytes w n)).map (f := ofLeBytes)
  rwa [ofLeBytes_toLeBytes h] at hread

/-- A signed integer of `w` bytes. -/
theorem int {w : ℕ} {i : ℤ} (h : (Codec.int endOfData w).Fits i) :
    Reads (StreamReader.int w) i ((Codec.int endOfData w).enc i) := by
  have hpos : (0 : ℤ) < 2 ^ (8 * w) := by positivity
  have hlt : (i % 2 ^ (8 * w)).toNat < 256 ^ w := by
    have h256 : (256 : ℕ) ^ w = 2 ^ (8 * w) := by
      rw [pow_mul]
      rfl
    rw [h256, Int.toNat_lt (Int.emod_nonneg _ hpos.ne')]
    exact_mod_cast Int.emod_lt_of_pos i hpos
  have hread := (uint hlt).map (f := fun n : ℕ => (n : ℤ).bmod (2 ^ (8 * w)))
  rwa [Codec.bmod_emod_of_fits h] at hread

/-- A size behind its marker. -/
theorem size_marker {w n m : ℕ} (hn : n < 256 ^ w)
    (hm : (m = 253 ∧ w = 2) ∨ (m = 254 ∧ w = 4) ∨ (m = 255 ∧ w = 8)) :
    Reads StreamReader.size n (toLeBytes 1 m ++ toLeBytes w n) := by
  refine bind (a := m) (uint (by omega)) ?_
  rcases hm with ⟨rfl, rfl⟩ | ⟨rfl, rfl⟩ | ⟨rfl, rfl⟩
  · exact uint hn
  · exact uint hn
  · exact uint hn

/-- `ReadCompactSize` of what `WriteCompactSize` wrote. -/
theorem size {n : ℕ} (h : n ≤ MAX_SIZE) : Reads StreamReader.size n (writeCompactSize n) := by
  have hmax : n ≤ 33554432 := h
  unfold writeCompactSize
  split_ifs with h₁ h₂ h₃
  · have hread : Reads StreamReader.size n (toLeBytes 1 n ++ []) := by
      refine bind (a := n) (uint (by omega)) ?_
      rw [if_pos h₁]
      exact pure n
    rwa [List.append_nil] at hread
  · exact size_marker (by norm_num; omega) (.inl ⟨rfl, rfl⟩)
  · exact size_marker (by norm_num; omega) (.inr (.inl ⟨rfl, rfl⟩))
  · exact size_marker (by norm_num; omega) (.inr (.inr ⟨rfl, rfl⟩))

/-- The same without the exception for a bad format. -/
theorem compactSize {n : ℕ} (h : n ≤ MAX_SIZE) : Reads StreamReader.compactSize n (writeCompactSize n) := by
  have hread : Reads StreamReader.compactSize n (writeCompactSize n ++ []) := by
    refine bind (size h) ?_
    rw [if_neg (not_lt.mpr h)]
    exact pure n
  rwa [List.append_nil] at hread

/-- Bytes in blocks of five million. -/
theorem blocks (v : List UInt8) : Reads (StreamReader.blocks v.length) v v := by
  induction hn : v.length using Nat.strong_induction_on generalizing v with
  | _ n ih =>
    rw [StreamReader.blocks]
    split_ifs with hzero
    · rw [List.length_eq_zero_iff.mp (hn.trans hzero)]
      exact pure []
    · have hfirst : (v.take (min n 5000000)).length = min n 5000000 := by
        rw [List.length_take]
        omega
      have hrest : (v.drop (min n 5000000)).length = n - min n 5000000 := by
        rw [List.length_drop, hn]
      have hread := (read hfirst).bind (k := fun v₁ => do
        let rest ← StreamReader.blocks (n - min n 5000000)
        Pure.pure (v₁ ++ rest)) (ih (n - min n 5000000) (by omega) (v.drop (min n 5000000)) hrest).map
      rwa [List.take_append_drop] at hread

/-- A row of bytes behind its size. -/
theorem bytes {v : List UInt8} (h : v.length ≤ MAX_SIZE) : Reads StreamReader.bytes v (string.enc v) :=
  (compactSize h).bind (blocks v)

/-- The elements of a vector, by induction on the row. -/
theorem elements {ser : α → List UInt8} {v : List α} (h : ∀ a ∈ v, Reads r a (ser a)) :
    Reads (StreamReader.elements r v.length) v (v.flatMap ser) := by
  induction v with
  | nil => exact pure []
  | cons a v ih =>
    obtain ⟨hfirst, hrest⟩ := List.forall_mem_cons.mp h
    exact hfirst.bind (k := fun a => do
      let v ← StreamReader.elements r v.length
      Pure.pure (a :: v)) (ih hrest).map

/-- Elements in batches. -/
theorem batches {ser : α → List UInt8} {v : List α} (h : ∀ a ∈ v, Reads r a (ser a))
    (nBatch : { n : ℕ // 0 < n }) : Reads (StreamReader.batches r nBatch v.length) v (v.flatMap ser) := by
  have hpos := nBatch.2
  induction hn : v.length using Nat.strong_induction_on generalizing v with
  | _ n ih =>
    rw [StreamReader.batches]
    split_ifs with hzero
    · rw [List.length_eq_zero_iff.mp (hn.trans hzero)]
      exact pure []
    · have hfirst : (v.take (min n nBatch.1)).length = min n nBatch.1 := by
        rw [List.length_take]
        omega
      have hrest : (v.drop (min n nBatch.1)).length = n - min n nBatch.1 := by
        rw [List.length_drop, hn]
      have hread := elements (v := v.take (min n nBatch.1)) (fun a ha => h a (List.mem_of_mem_take ha))
      rw [hfirst] at hread
      have hlater := ih (n - min n nBatch.1) (by omega) (fun a ha => h a (List.mem_of_mem_drop ha)) hrest
      have hboth := hread.bind (k := fun v₁ => do
        let rest ← StreamReader.batches r nBatch (n - min n nBatch.1)
        Pure.pure (v₁ ++ rest)) hlater.map
      rwa [List.take_append_drop, ← List.flatMap_append, List.take_append_drop] at hboth

/-- A vector behind its size, read in batches. -/
theorem vector {ser : α → List UInt8} {v : List α} (hlen : v.length ≤ MAX_SIZE)
    (h : ∀ a ∈ v, Reads r a (ser a)) (nBatch : { n : ℕ // 0 < n }) :
    Reads (StreamReader.vector r nBatch) v (serializeVector ser v) :=
  (compactSize hlen).bind (batches h nBatch)

end Reads

/-! ### The codes -/

namespace COutPoint

/-- `COutPoint`. -/
theorem reads {o : COutPoint} (h : o.Fits) : Reads unserialize o o.serialize := by
  have hlen : o.serialize.length = 36 := by
    unfold serialize
    rw [List.length_append, length_toLeBytes, length_toLeBytes]
  have hread := (Reads.read hlen).map (f := fun v => (⟨ofLeBytes (v.take 32), ofLeBytes (v.drop 32)⟩ : COutPoint))
  have htake : o.serialize.take 32 = toLeBytes 32 o.hash := List.take_left' (length_toLeBytes 32 o.hash)
  have hdrop : o.serialize.drop 32 = toLeBytes 4 o.n := List.drop_left' (length_toLeBytes 32 o.hash)
  rw [htake, hdrop, ofLeBytes_toLeBytes (by norm_num; exact h.1), ofLeBytes_toLeBytes (by norm_num; exact h.2)]
    at hread
  exact hread

end COutPoint

namespace CTxIn

/-- `CTxIn`. -/
theorem reads {txin : CTxIn} (h : txin.Fits) : Reads unserialize txin txin.serialize := by
  obtain ⟨hprev, hscript, hseq⟩ := h
  exact (COutPoint.reads hprev).bind ((Reads.bytes hscript).bind (Reads.uint (by norm_num; exact hseq)).map)

end CTxIn

namespace CTxOut

/-- `CTxOut`. -/
theorem reads {txout : CTxOut} (h : txout.Fits) : Reads unserialize txout txout.serialize := by
  obtain ⟨hvalue, hscript⟩ := h
  exact (Reads.int (int64_fits.mpr hvalue)).bind (Reads.bytes hscript).map

end CTxOut

namespace CTransaction

/-- `CTransaction`, whichever order the build has. -/
theorem reads (L : Layout) {tx : CTransaction} (h : tx.Fits) : Reads (unserialize L) tx tx.serialize := by
  have hvin := Reads.vector h.vin.1 (fun txin htxin => CTxIn.reads (h.vin.2 txin htxin)) L.nTxIn
  have hvout := Reads.vector h.vout.1 (fun txout htxout => CTxOut.reads (h.vout.2 txout htxout)) L.nTxOut
  exact (Reads.int (int32_fits.mpr h.nVersion)).bind ((Reads.uint (by norm_num; exact h.nTime)).bind
    (hvin.bind (hvout.bind (Reads.uint (by norm_num; exact h.nLockTime)).map)))

end CTransaction

namespace CBlock

/-- What is left of a block that is written without its transactions and signature. -/
def ofType (nType : ℕ) (block : CBlock) : CBlock :=
  if isFull nType then block else { block with vtx := [], vchBlockSig := [] }

/-- `CBlock`, or its header alone. -/
theorem reads (L : Layout) (nType : ℕ) {block : CBlock} (h : block.Fits) :
    Reads (unserialize L nType) (block.ofType nType) (block.serialize nType) := by
  have hvtx := Reads.vector h.vtx.1 (fun tx htx => CTransaction.reads L (h.vtx.2 tx htx)) L.nTransaction
  refine (Reads.int (int32_fits.mpr h.nVersion)).bind
    ((Reads.uint (by norm_num; exact h.hashPrevBlock)).bind
    ((Reads.uint (by norm_num; exact h.hashMerkleRoot)).bind ((Reads.uint (by norm_num; exact h.nTime)).bind
    ((Reads.uint (by norm_num; exact h.nBits)).bind
    ((Reads.uint (by norm_num; exact h.nNonce)).bind ?_)))))
  unfold ofType
  split_ifs with hfull
  · exact hvtx.bind (Reads.bytes h.vchBlockSig).map
  · exact Reads.pure _

end CBlock

/-! ### Sizes -/

/-- `GetSizeOfCompactSize` is the number of bytes written. -/
theorem length_writeCompactSize (n : ℕ) : (writeCompactSize n).length = getSizeOfCompactSize n := by
  unfold writeCompactSize getSizeOfCompactSize
  split_ifs <;> simp [length_toLeBytes]

/-- The bytes of a row with its size. -/
theorem length_string_enc (v : List UInt8) : (string.enc v).length = sizeOfBytes v := by
  show (writeCompactSize v.length ++ v).length = _
  rw [List.length_append, length_writeCompactSize]
  rfl

/-- An integer has its width. -/
theorem length_int_enc (w : ℕ) (i : ℤ) : ((Codec.int endOfData w).enc i).length = w := length_toLeBytes w _

/-- The bytes of a vector add up. -/
theorem length_serializeVector {α : Type} {ser : α → List UInt8} {size : α → ℕ}
    (h : ∀ a, (ser a).length = size a) (v : List α) :
    (serializeVector ser v).length = getSizeOfCompactSize v.length + (v.map size).sum := by
  unfold serializeVector
  rw [List.length_append, length_writeCompactSize, List.length_flatMap]
  simp only [h]

/-- `GetSerializeSize` of an input, as a number without bound. -/
theorem CTxIn.length_serialize (txin : CTxIn) : txin.serialize.length = txin.getSerializeSize := by
  unfold CTxIn.serialize COutPoint.serialize CTxIn.getSerializeSize
  simp only [List.length_append, length_toLeBytes, length_string_enc]
  omega

/-- And of an output. -/
theorem CTxOut.length_serialize (txout : CTxOut) : txout.serialize.length = txout.getSerializeSize := by
  unfold CTxOut.serialize CTxOut.getSerializeSize int64
  rw [List.length_append, length_int_enc, length_string_enc]

/-- And of a transaction. -/
theorem CTransaction.length_serialize (tx : CTransaction) : tx.serialize.length = tx.getSerializeSize := by
  unfold CTransaction.serialize CTransaction.getSerializeSize int32
  simp only [List.length_append, length_int_enc, length_toLeBytes,
    length_serializeVector CTxIn.length_serialize, length_serializeVector CTxOut.length_serialize]
  omega

/-- And of a block or its header. -/
theorem CBlock.length_serialize (nType : ℕ) (block : CBlock) :
    (block.serialize nType).length = if isFull nType then block.getSerializeSize else headerSize := by
  unfold CBlock.serialize CBlock.getSerializeSize CBlock.headerSize int32
  split_ifs
  · simp only [List.length_append, length_int_enc, length_toLeBytes, length_string_enc,
      length_serializeVector CTransaction.length_serialize]
    omega
  · simp only [List.length_append, length_int_enc, length_toLeBytes, List.length_nil]

/-- The size computed in `unsigned int` is the size modulo `2 ^ 32`. -/
theorem sizeOfVectorU32_eq {α : Type} {sizeU32 size : α → ℕ} (h : ∀ a, sizeU32 a = size a % 2 ^ 32) (v : List α) :
    sizeOfVectorU32 sizeU32 v % 2 ^ 32 = (getSizeOfCompactSize v.length + (v.map size).sum) % 2 ^ 32 := by
  unfold sizeOfVectorU32
  generalize getSizeOfCompactSize v.length = n
  induction v generalizing n with
  | nil => simp
  | cons a v ih =>
    rw [List.foldl_cons, ih, List.map_cons, List.sum_cons, addU32, h, Nat.add_mod_mod, Nat.mod_add_mod,
      Nat.add_assoc]

/-- For an input. -/
theorem CTxIn.getSerializeSizeU32_eq (txin : CTxIn) :
    txin.getSerializeSizeU32 = txin.getSerializeSize % 2 ^ 32 := by
  unfold CTxIn.getSerializeSizeU32 CTxIn.getSerializeSize addU32 sizeOfBytesU32 sizeOfBytes
  omega

/-- For an output. -/
theorem CTxOut.getSerializeSizeU32_eq (txout : CTxOut) :
    txout.getSerializeSizeU32 = txout.getSerializeSize % 2 ^ 32 := by
  unfold CTxOut.getSerializeSizeU32 CTxOut.getSerializeSize addU32 sizeOfBytesU32 sizeOfBytes
  omega

/-- For a transaction. -/
theorem CTransaction.getSerializeSizeU32_eq (tx : CTransaction) :
    tx.getSerializeSizeU32 = tx.getSerializeSize % 2 ^ 32 := by
  have hvin := sizeOfVectorU32_eq CTxIn.getSerializeSizeU32_eq tx.vin
  have hvout := sizeOfVectorU32_eq CTxOut.getSerializeSizeU32_eq tx.vout
  unfold CTransaction.getSerializeSizeU32 CTransaction.getSerializeSize addU32
  omega

/-- For a block, which is how both are computed. -/
theorem CBlock.getSerializeSizeU32_eq (nType : ℕ) (block : CBlock) :
    block.getSerializeSizeU32 nType = (block.serialize nType).length % 2 ^ 32 := by
  have hvtx := sizeOfVectorU32_eq CTransaction.getSerializeSizeU32_eq block.vtx
  rw [block.length_serialize]
  unfold CBlock.getSerializeSizeU32 CBlock.getSerializeSize CBlock.headerSize addU32 sizeOfBytesU32 sizeOfBytes
  split_ifs
  · dsimp only
    omega
  · norm_num

/-! ### The round trip -/

/-- Reading from a stream with `code` and anything behind it yields `a`, leaves what is behind, and has
consumed `nSize` bytes. -/
def RoundTrips {α : Type} (r : StreamReader α) (a : α) (code : List UInt8) (nSize : ℕ) : Prop :=
  ∀ trailing, ∃ s, r { vch := code ++ trailing } = .ok (a, s) ∧ s.data = trailing ∧
    (code ++ trailing).length - s.data.length = nSize

/-- A value whose bytes are fewer than `2 ^ 32` comes back and has the size announced. -/
theorem Reads.roundTrips {α : Type} {r : StreamReader α} {a : α} {code : List UInt8} (h : Reads r a code)
    (hlen : code.length < 2 ^ 32) : RoundTrips r a code (code.length % 2 ^ 32) := by
  intro trailing
  have hok : CDataStream.Ok { vch := code ++ trailing } := Nat.zero_le _
  have hpos : 0 + code.length < 2 ^ 32 := by omega
  obtain ⟨s, hrun, -, hdata, -⟩ := h { vch := code ++ trailing } trailing hok rfl hpos
  refine ⟨s, hrun, hdata, ?_⟩
  rw [hdata, List.length_append, Nat.add_sub_cancel, Nat.mod_eq_of_lt hlen]

/-- All the bytes of the code are consumed, so their number is an `unsigned int`. -/
theorem RoundTrips.length_lt {α : Type} {r : StreamReader α} {a : α} {code : List UInt8}
    (h : RoundTrips r a code (code.length % 2 ^ 32)) : code.length < 2 ^ 32 := by
  obtain ⟨s, -, hdata, hsize⟩ := h []
  rw [hdata, List.append_nil, List.length_nil, Nat.sub_zero] at hsize
  rw [hsize]
  exact Nat.mod_lt _ (by norm_num)

/-- **The round trip** of transactions and of blocks: it works exactly for codes of less than 2^32 bytes. Of a
block that is written without its transactions and signature the header comes back. Whatever their length,
different transactions and different blocks have different codes. -/
theorem serialize_roundTrips_iff (L : Layout) :
    (∀ tx : CTransaction, tx.Fits →
      (RoundTrips (CTransaction.unserialize L) tx tx.serialize tx.getSerializeSizeU32 ↔
        tx.getSerializeSize < 2 ^ 32)) ∧
    (∀ (nType : ℕ) (block : CBlock), block.Fits →
      (RoundTrips (CBlock.unserialize L nType) (block.ofType nType) (block.serialize nType)
        (block.getSerializeSizeU32 nType) ↔ (CBlock.isFull nType = true → block.getSerializeSize < 2 ^ 32))) ∧
    (∀ tx tx' : CTransaction, tx.Fits → tx'.Fits → tx.serialize = tx'.serialize → tx = tx') ∧
    (∀ (nType : ℕ) (block block' : CBlock), CBlock.isFull nType = true → block.Fits → block'.Fits →
      block.serialize nType = block'.serialize nType → block = block') := by
  refine ⟨?_, ?_, ?_, ?_⟩
  · intro tx htx
    rw [tx.getSerializeSizeU32_eq, ← tx.length_serialize]
    exact ⟨RoundTrips.length_lt, (CTransaction.reads L htx).roundTrips⟩
  · intro nType block hblock
    rw [block.getSerializeSizeU32_eq nType]
    have hlen := block.length_serialize nType
    constructor
    · intro htrip hfull
      rw [if_pos hfull] at hlen
      rw [← hlen]
      exact htrip.length_lt
    · intro hsize
      refine (CBlock.reads L nType hblock).roundTrips ?_
      rw [hlen]
      split_ifs with hfull
      · exact hsize hfull
      · decide
  · intro tx tx' htx htx' heq
    have henc : CTransaction.codec.enc tx ++ [] = CTransaction.codec.enc tx' ++ [] := by
      rw [CTransaction.codec_enc, CTransaction.codec_enc, heq]
    exact (CTransaction.codec.append_inj htx htx' henc).1
  · intro nType block block' hfull hblock hblock' heq
    have henc : CBlock.codec.enc block ++ [] = CBlock.codec.enc block' ++ [] := by
      rw [CBlock.codec_enc hfull, CBlock.codec_enc hfull, heq]
    exact (CBlock.codec.append_inj hblock hblock' henc).1

namespace Sample

/-- Vectors of structures in memory, on a machine with 64 bits. -/
def layout64 : Layout := ⟨⟨69444, by decide⟩, ⟨156250, by decide⟩, ⟨78125, by decide⟩⟩

/-- 129 inputs with the same script. -/
def hugeTx (scriptSig : CScript) : CTransaction where
  nTime := 0
  vin := List.replicate 129 ⟨COutPoint.null, scriptSig, 0⟩
  vout := []

/-- The output point of a coinbase. -/
theorem fits_null : COutPoint.null.Fits := ⟨by decide, by decide⟩

/-- A transaction with a script of the greatest size. -/
theorem fits_hugeTx {scriptSig : CScript} (h : scriptSig.length = MAX_SIZE) : (hugeTx scriptSig).Fits := by
  refine ⟨⟨by norm_num [hugeTx], by norm_num [hugeTx]⟩, by norm_num [hugeTx], ⟨?_, ?_⟩,
    ⟨Nat.zero_le _, ?_⟩, by norm_num [hugeTx]⟩
  · rw [hugeTx, List.length_replicate]
    decide
  · intro txin htxin
    rw [List.eq_of_mem_replicate htxin]
    exact ⟨fits_null, h.le, by norm_num⟩
  · intro txout htxout
    exact absurd htxout (by simp [hugeTx])

/-- When the script is as long as a vector may be, the inputs have more than 2^32 bytes together. -/
theorem getSerializeSize_hugeTx {scriptSig : CScript} (h : scriptSig.length = MAX_SIZE) :
    2 ^ 32 ≤ (hugeTx scriptSig).getSerializeSize := by
  have hin : MAX_SIZE ≤ CTxIn.getSerializeSize ⟨COutPoint.null, scriptSig, 0⟩ := by
    unfold CTxIn.getSerializeSize sizeOfBytes
    simp only [h]
    omega
  have hvin : ((hugeTx scriptSig).vin.map CTxIn.getSerializeSize).sum =
      129 * CTxIn.getSerializeSize ⟨COutPoint.null, scriptSig, 0⟩ := by
    rw [hugeTx, List.map_replicate, List.sum_replicate, smul_eq_mul]
  have hmax : 2 ^ 32 ≤ 129 * MAX_SIZE := by decide
  unfold CTransaction.getSerializeSize
  rw [hvin]
  omega

end Sample

/-- Not every transaction within the limits survives. -/
theorem serialize_hugeTx : ¬ ∀ tx : CTransaction, tx.Fits →
    RoundTrips (CTransaction.unserialize Sample.layout64) tx tx.serialize tx.getSerializeSizeU32 := by
  intro h
  obtain ⟨scriptSig, hscript⟩ : ∃ scriptSig : CScript, scriptSig.length = MAX_SIZE :=
    ⟨List.replicate MAX_SIZE 0, List.length_replicate⟩
  have htrip := h (Sample.hugeTx scriptSig) (Sample.fits_hugeTx hscript)
  rw [CTransaction.getSerializeSizeU32_eq, ← CTransaction.length_serialize] at htrip
  have hlt := htrip.length_lt
  rw [CTransaction.length_serialize] at hlt
  exact absurd hlt (not_lt.mpr (Sample.getSerializeSize_hugeTx hscript))

/-- A coinbase survives. -/
theorem serialize_roundTrips_coinBase :
    RoundTrips (CTransaction.unserialize Sample.layout64) (Sample.coinBase 5) (Sample.coinBase 5).serialize
      (Sample.coinBase 5).getSerializeSizeU32 := by
  refine ((serialize_roundTrips_iff Sample.layout64).1 (Sample.coinBase 5) ?_).mpr (by decide)
  refine ⟨by decide, by decide, ⟨by decide, ?_⟩, ⟨by decide, ?_⟩, by decide⟩
  · intro txin htxin
    rw [List.mem_singleton.mp htxin]
    exact ⟨Sample.fits_null, by decide, by decide⟩
  · intro txout htxout
    rw [List.mem_singleton.mp htxout]
    exact ⟨by decide, by decide⟩

end Peershares
