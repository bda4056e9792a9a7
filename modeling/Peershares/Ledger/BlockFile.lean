import Peershares.Framework.Loop
import Peershares.Ledger.Chain
import Peershares.Model.BlockFile
import Peershares.Net.Wire

/-!
# Transactions are found where `ConnectBlock` says

`ConnectBlock` computes the positions of the transactions from sizes alone. They are the offsets at which
`WriteToDisk` wrote the transactions (`CBlock.serialize_at`, `CBlock.txPositions_get`), and they are the positions
in the index after the block is connected (`posOf_connectTransactions`). What `CheckBlock` allows in a block is
small enough for `ReadCompactSize`, so a transaction is read back from its position.

* `CBlock.recorded_positions` — the positions in the index
* `BlockFileBytes.Shows` — the files as bytes refine the files as lists of stored blocks
-/

open Framework

namespace Peershares

open IndexView

/-! ### Offsets in a block -/

namespace CBlock

variable {block : CBlock} {tx : CTransaction} {i : ℕ}

/-- What a block file has in front of transaction `i` of a block: the header, the number of transactions, and the
transactions before it. -/
def serializedBefore (block : CBlock) (i : ℕ) : List UInt8 :=
  block.serialize (SER_DISK ||| SER_BLOCKHEADERONLY) ++
    (writeCompactSize block.vtx.length ++ (block.vtx.take i).flatMap CTransaction.serialize)

/-- The offset of a transaction in its block. -/
theorem length_serializedBefore (block : CBlock) (i : ℕ) : (block.serializedBefore i).length =
    headerSize + getSizeOfCompactSize block.vtx.length + ((block.vtx.take i).map CTransaction.getSerializeSize).sum := by
  have hheader := block.length_serialize (SER_DISK ||| SER_BLOCKHEADERONLY)
  rw [if_neg (by decide)] at hheader
  unfold serializedBefore
  rw [List.length_append, List.length_append, hheader, length_writeCompactSize, List.length_flatMap,
    funext CTransaction.length_serialize, Nat.add_assoc]

/-- A transaction in the bytes of its block. -/
theorem serialize_at (h : block.vtx[i]? = some tx) : block.serialize SER_DISK =
    block.serializedBefore i ++ (tx.serialize ++
      ((block.vtx.drop (i + 1)).flatMap CTransaction.serialize ++ string.enc block.vchBlockSig)) := by
  have hsplit : block.vtx = block.vtx.take i ++ tx :: block.vtx.drop (i + 1) := by
    obtain ⟨hi, rfl⟩ := List.getElem?_eq_some_iff.mp h
    rw [← List.drop_eq_getElem_cons hi, List.take_append_drop]
  have hvtx : block.vtx.flatMap CTransaction.serialize = (block.vtx.take i).flatMap CTransaction.serialize ++
      (tx.serialize ++ (block.vtx.drop (i + 1)).flatMap CTransaction.serialize) := by
    conv_lhs => rw [hsplit]
    rw [List.flatMap_append, List.flatMap_cons]
  have hfull : isFull SER_DISK = true := by decide
  have hheader : isFull (SER_DISK ||| SER_BLOCKHEADERONLY) = false := by decide
  unfold serializedBefore serialize
  rw [hfull, hheader, if_pos rfl, if_neg Bool.false_ne_true, serializeVector, hvtx]
  simp only [List.append_assoc, List.nil_append]

/-- The size of an empty block without its two sizes is that of a header. -/
theorem firstTxPos_eq (nBlockPos : ℕ) (block : CBlock) : block.firstTxPos nBlockPos =
    (nBlockPos + headerSize + getSizeOfCompactSize block.vtx.length) % 2 ^ 32 := by
  have hnull : null.getSerializeSizeU32 SER_DISK = 82 := by decide
  have hzero : getSizeOfCompactSize 0 = 1 := rfl
  unfold firstTxPos subU32 addU32 headerSize
  rw [hnull, hzero]
  omega

/-- Every position is that of the first transaction with the sizes of those before it. -/
theorem txPositions_get {vtx : List CTransaction} {nTxPos : ℕ} (hpos : nTxPos < 2 ^ 32) (h : vtx[i]? = some tx) :
    (txPositions nTxPos vtx)[i]? = some (txOffset nTxPos (vtx.take i) % 2 ^ 32) := by
  induction vtx generalizing i nTxPos with
  | nil => exact absurd h (by simp)
  | cons first vtx ih =>
    cases i with
    | zero =>
      rw [txPositions, List.getElem?_cons_zero, List.take_zero, txOffset, List.map_nil, List.sum_nil, Nat.add_zero,
        Nat.mod_eq_of_lt hpos]
    | succ i =>
      rw [List.getElem?_cons_succ] at h
      rw [txPositions, List.getElem?_cons_succ, addU32, ih (Nat.mod_lt _ (by norm_num)) h]
      simp only [txOffset, List.take_succ_cons, List.map_cons, List.sum_cons,
        CTransaction.getSerializeSizeU32_eq]
      congr 1
      omega

end CBlock

/-! ### The positions in the index -/

section Connect

variable {P : Params} {env : ConnectEnv} {pindex : CBlockIndex} {pprev : BlockPtr} {fStrict : Bool}
  {st st' : ConnectState} {tx : CTransaction}

/-- Spending outputs does not move the transactions they belong to. -/
theorem posOf_connectValue {pindexBlock : BlockPtr} {pos : CDiskTxPos} (hpos : pos.isNull = false)
    (h : connectValue P env pindexBlock fStrict pos st tx = .ok st') :
    posOf (queued st'.mapQueuedChanges env.txIndex) = posOf (queued st.mapQueuedChanges env.txIndex) ∧
      st'.nTxPos = st.nTxPos := by
  unfold connectValue at h
  split_ifs at h with hcb
  · obtain ⟨vout, -, hst⟩ := Result.bind_eq_ok.mp h
    cases hst
    exact ⟨rfl, rfl⟩
  · rw [Bool.not_eq_true] at hcb
    obtain ⟨inputs, hfetch, -, hspend, -, hnext, -⟩ := connectSpending_eq_ok hcb h
    have hfetched := CTransaction.fetchInputs_eq_ok rfl hfetch
    obtain ⟨hmarked, -, -⟩ :=
      spendInputs_eq_ok rfl hpos (fun h prev hlook => (hfetched h prev hlook).1) hspend
    exact ⟨hmarked.posOf_eq, hnext⟩

/-- **The step lemma**: one round records the position of its transaction. -/
theorem posOf_connectTransaction (hfile : pindex.nFile ≠ UINT_MAX)
    (h : connectTransaction P env pindex pprev fStrict st tx = .ok st') :
    posOf (queued st'.mapQueuedChanges env.txIndex) =
        Function.update (posOf (queued st.mapQueuedChanges env.txIndex)) (P.hashTx tx)
          (some ⟨pindex.nFile, pindex.nBlockPos, st.nTxPos⟩) ∧
      st'.nTxPos = st.nTxPos + tx.getSerializeSize := by
  obtain ⟨st₁, hvalue, rfl⟩ := connectTransaction_eq_ok h
  have hnull : CDiskTxPos.isNull ⟨pindex.nFile, pindex.nBlockPos, st.nTxPos⟩ = false := decide_eq_false hfile
  obtain ⟨hposOf, hnext⟩ := posOf_connectValue hnull hvalue
  refine ⟨?_, hnext⟩
  rw [queued_insert, ← hposOf]
  funext k
  rw [posOf, Function.update_apply, Function.update_apply]
  split_ifs
  · rfl
  · rfl

/-- **The run lemma**: the position of every transaction, when their hashes are distinct. -/
theorem posOf_connectTransactions {vtx : List CTransaction} (hfile : pindex.nFile ≠ UINT_MAX)
    (hnodup : (vtx.map P.hashTx).Nodup)
    (h : connectTransactions P env pindex pprev fStrict vtx st = .ok st') :
    (∀ k, k ∉ vtx.map P.hashTx →
      posOf (queued st'.mapQueuedChanges env.txIndex) k = posOf (queued st.mapQueuedChanges env.txIndex) k) ∧
    ∀ i tx, vtx[i]? = some tx → posOf (queued st'.mapQueuedChanges env.txIndex) (P.hashTx tx) =
      some ⟨pindex.nFile, pindex.nBlockPos, txOffset st.nTxPos (vtx.take i)⟩ := by
  induction vtx generalizing st with
  | nil =>
    cases h
    exact ⟨fun _ _ => rfl, fun i tx hi => absurd hi (by simp)⟩
  | cons first vtx ih =>
    obtain ⟨hnew, hnodup'⟩ := List.nodup_cons.mp hnodup
    obtain ⟨st₁, hround, hloop⟩ := Result.bind_eq_ok.mp h
    obtain ⟨hposOf, hnext⟩ := posOf_connectTransaction hfile hround
    obtain ⟨hframe, hrest⟩ := ih hnodup' hloop
    constructor
    · intro k hk
      obtain ⟨hne, hk⟩ := not_or.mp (fun hmem => hk (List.mem_cons.mpr hmem))
      rw [hframe k hk, hposOf, Function.update_of_ne hne]
    · intro i tx hi
      cases i with
      | zero =>
        -- no later transaction has this hash
        cases hi
        rw [hframe _ hnew, hposOf, Function.update_self, List.take_zero, txOffset, List.map_nil, List.sum_nil,
          Nat.add_zero]
      | succ i =>
        rw [List.getElem?_cons_succ] at hi
        rw [hrest i tx hi, hnext]
        simp only [txOffset, List.take_succ_cons, List.map_cons, List.sum_cons, Nat.add_assoc]

end Connect

/-! ### Sizes -/

/-- One summand is at most the sum. -/
theorem le_sum_map {α : Type} {f : α → ℕ} {l : List α} {a : α} (h : a ∈ l) : f a ≤ (l.map f).sum :=
  List.single_le_sum (fun _ _ => Nat.zero_le _) _ (List.mem_map_of_mem h)

/-- There are at most as many as their sum. -/
theorem length_le_sum_map {α : Type} {f : α → ℕ} {l : List α} (h : ∀ a ∈ l, 0 < f a) : l.length ≤ (l.map f).sum := by
  have hle := List.length_le_sum_of_one_le (l.map f) (by
    intro n hn
    obtain ⟨a, ha, rfl⟩ := List.mem_map.mp hn
    exact h a ha)
  rwa [List.length_map] at hle

/-- The numbers of a transaction are in the range of their types. -/
structure CTransaction.NumbersFit (tx : CTransaction) : Prop where
  nVersion : -2 ^ 31 ≤ tx.nVersion ∧ tx.nVersion < 2 ^ 31
  nTime : tx.nTime < 2 ^ 32
  vin : ∀ txin ∈ tx.vin, txin.prevout.Fits ∧ txin.nSequence < 2 ^ 32
  vout : ∀ txout ∈ tx.vout, -2 ^ 63 ≤ txout.nValue ∧ txout.nValue < 2 ^ 63
  nLockTime : tx.nLockTime < 2 ^ 32

/-- The vectors of a transaction are not longer than the transaction. -/
theorem CTransaction.NumbersFit.fits {tx : CTransaction} (h : tx.NumbersFit) (hsize : tx.getSerializeSize ≤ MAX_SIZE) :
    tx.Fits := by
  unfold CTransaction.getSerializeSize at hsize
  refine ⟨h.nVersion, h.nTime, ⟨?_, ?_⟩, ⟨?_, ?_⟩, h.nLockTime⟩
  · have hlen := length_le_sum_map (f := CTxIn.getSerializeSize) (l := tx.vin)
      (fun txin _ => by unfold CTxIn.getSerializeSize; omega)
    omega
  · intro txin hmem
    obtain ⟨hprev, hseq⟩ := h.vin txin hmem
    have hle := le_sum_map (f := CTxIn.getSerializeSize) hmem
    unfold CTxIn.getSerializeSize sizeOfBytes at hle hsize
    exact ⟨hprev, by omega, hseq⟩
  · have hlen := length_le_sum_map (f := CTxOut.getSerializeSize) (l := tx.vout)
      (fun txout _ => by unfold CTxOut.getSerializeSize; omega)
    omega
  · intro txout hmem
    have hle := le_sum_map (f := CTxOut.getSerializeSize) hmem
    unfold CTxOut.getSerializeSize sizeOfBytes at hle hsize
    exact ⟨h.vout txout hmem, by omega⟩

/-- The size limit of `CheckBlock`. -/
theorem CBlock.getSerializeSize_le {P : Params} {nAdjustedTime : Int} {block : CBlock} {u : Unit}
    (h : block.checkBlock P nAdjustedTime = .ok u) : block.getSerializeSize ≤ MAX_BLOCK_SIZE := by
  unfold checkBlock at h
  split at h
  · exact absurd h (by simp)
  · simp only [Result.bind_eq_ok, require_eq_ok] at h
    obtain ⟨-, hsize, -⟩ := h
    simp only [Bool.and_eq_true, decide_eq_true_eq] at hsize
    exact hsize.2

/-- A block that has passed `CheckBlock` has transactions that can be written. -/
theorem CBlock.fits_of_checkBlock {P : Params} {nAdjustedTime : Int} {block : CBlock} {u : Unit}
    (h : block.checkBlock P nAdjustedTime = .ok u) {tx : CTransaction} (htx : tx ∈ block.vtx) (hrange : tx.NumbersFit) :
    tx.Fits := by
  have hle := le_sum_map (f := CTransaction.getSerializeSize) htx
  have hsize := CBlock.getSerializeSize_le h
  have hmax : MAX_BLOCK_SIZE ≤ MAX_SIZE := by decide
  refine hrange.fits ?_
  unfold CBlock.getSerializeSize at hsize
  omega

/-! ### The files -/

/-- What `WriteToDisk` writes in front of a block. -/
def CBlock.recordHeader (P : Params) (block : CBlock) : List UInt8 :=
  getMessageStart P ++ toLeBytes 4 (block.getSerializeSizeU32 SER_DISK)

/-- Message start and size are eight bytes. -/
theorem CBlock.length_recordHeader (P : Params) (block : CBlock) : (block.recordHeader P).length = 8 := by
  unfold recordHeader
  rw [List.length_append, length_getMessageStart, length_toLeBytes]

namespace BlockFileBytes

variable {P : Params} {d d' : BlockFileBytes} {block : CBlock} {nFile nBlockPos : ℕ}

/-- A file number that was found is not the reserved one. -/
theorem appendBlockFile_ne {nRounds nFile₀ : ℕ} (h : d.appendBlockFile nRounds nFile₀ = some nFile) :
    nFile ≠ UINT_MAX := by
  induction nRounds generalizing nFile₀ with
  | zero =>
    rw [appendBlockFile] at h
    split_ifs at h with hmax
    cases h
    exact hmax
  | succ n ih =>
    rw [appendBlockFile] at h
    split_ifs at h with hmax hroom
    · cases h
      exact hmax
    · exact ih h

/-- What `WriteToDisk` does. -/
theorem writeToDisk_eq_some (h : d.writeToDisk P block = some (d', nFile, nBlockPos)) :
    nFile ≠ UINT_MAX ∧ nBlockPos = ((d.contents nFile).length + 8) % 2 ^ 32 ∧
      d'.contents nFile = d.contents nFile ++ (block.recordHeader P ++ block.serialize SER_DISK) ∧
      ∀ nFile', nFile' ≠ nFile → d'.contents nFile' = d.contents nFile' := by
  simp only [writeToDisk, Option.map_eq_some_iff, Prod.mk.injEq] at h
  obtain ⟨_, hfile, rfl, rfl, rfl⟩ := h
  refine ⟨appendBlockFile_ne hfile, ?_, ?_, fun nFile' hne => ?_⟩
  · have hheader := block.length_recordHeader P
    unfold CBlock.recordHeader at hheader
    rw [List.length_append, hheader]
  · rw [contents, Map.lookup_insert_eq, if_pos rfl, Option.getD_some, CBlock.recordHeader, List.append_assoc]
  · rw [contents, Map.lookup_insert_eq, if_neg hne]
    rfl

/-- A transaction that is written somewhere in a file is read from there. -/
theorem readFromDisk_of_contents {tx : CTransaction} {before after : List UInt8} (hfits : tx.Fits)
    (hfile : nFile ≠ UINT_MAX) (h : d.contents nFile = before ++ (tx.serialize ++ after)) (nBlockPos : ℕ) :
    d.readFromDisk ⟨nFile, nBlockPos, before.length⟩ = some tx := by
  have hsome : d.files.lookup nFile = some (d.contents nFile) := by
    unfold contents at h ⊢
    cases hlook : d.files.lookup nFile with
    | some file => rfl
    | none =>
      -- a transaction has bytes
      have hlen := congrArg List.length h
      have hpos := tx.getSerializeSize_pos
      rw [hlook, Option.getD_none, List.length_nil, List.length_append, List.length_append, tx.length_serialize] at hlen
      omega
  have hread : CTransaction.codec.dec ((d.contents nFile).drop before.length) = .ok (tx, after) := by
    rw [h, List.drop_left, ← CTransaction.codec_enc]
    exact CTransaction.codec.dec_enc after hfits
  unfold readFromDisk
  rw [if_neg hfile]
  simp only [hsome, hread]
  rfl

end BlockFileBytes

/-- **Recorded positions are right.** A block is written and connected. Then the index has each of its transactions
at the position that the loop of `ConnectBlock` computes; in the file this is behind the bytes that were there, the
message start, the size, the header of the block and the transactions before; and there the transaction is read,
also after more was appended. -/
theorem CBlock.recorded_positions {P : Params} {env : ConnectEnv} {nAdjustedTime : Int} {pindex : CBlockIndex}
    {pprev : BlockPtr} {block : CBlock} {st : ConnectState} {d d' : BlockFileBytes} {nFile nBlockPos : ℕ}
    (hrange : ∀ tx ∈ block.vtx, tx.NumbersFit) (hwrite : d.writeToDisk P block = some (d', nFile, nBlockPos))
    (hlen : (d'.contents nFile).length < 2 ^ 32) (hfile : pindex.nFile = nFile) (hpos : pindex.nBlockPos = nBlockPos)
    (hconnect : block.connectChecks P env nAdjustedTime pindex pprev = .ok st) :
    ∀ i tx, block.vtx[i]? = some tx → ∃ txindex, (st.writeQueued env.txIndex).lookup (P.hashTx tx) = some txindex ∧
      txindex.pos.nFile = nFile ∧ txindex.pos.nBlockPos = nBlockPos ∧
      (txPositions (block.firstTxPos nBlockPos) block.vtx)[i]? = some txindex.pos.nTxPos ∧
      (d.contents nFile ++ block.recordHeader P ++ block.serializedBefore i).length = txindex.pos.nTxPos ∧
      d.contents nFile ++ block.recordHeader P ++ block.serializedBefore i ++ tx.serialize <+: d'.contents nFile ∧
      ∀ d'' : BlockFileBytes, d'.contents nFile <+: d''.contents nFile → d''.readFromDisk txindex.pos = some tx := by
  intro i tx hi
  -- `WriteToDisk` appends a header and the block to its file
  obtain ⟨hne, hblockPos, hcontents, -⟩ := BlockFileBytes.writeToDisk_eq_some hwrite
  rw [block.serialize_at hi] at hcontents
  -- everything in front of the transaction
  have hoffset : (d.contents nFile ++ block.recordHeader P ++ block.serializedBefore i).length =
      txOffset ((d.contents nFile).length + 8 + headerSize + getSizeOfCompactSize block.vtx.length)
        (block.vtx.take i) := by
    rw [List.length_append, List.length_append, block.length_recordHeader, block.length_serializedBefore, txOffset]
    omega
  -- the file is short, so no offset wraps around
  have hbound : (d.contents nFile ++ block.recordHeader P ++ block.serializedBefore i).length < 2 ^ 32 := by
    rw [hcontents] at hlen
    simp only [List.length_append] at hlen ⊢
    omega
  have hstart : (d.contents nFile).length + 8 + headerSize + getSizeOfCompactSize block.vtx.length < 2 ^ 32 := by
    rw [hoffset, txOffset] at hbound
    omega
  have hwritten : nBlockPos = (d.contents nFile).length + 8 := by
    rw [hblockPos, Nat.mod_eq_of_lt (by omega)]
  -- `ConnectBlock` counts the offset of each transaction
  simp only [CBlock.connectChecks, Result.bind_eq_ok, require_eq_ok] at hconnect
  obtain ⟨_, hcheck, -, -, hloop⟩ := hconnect
  obtain ⟨-, hposOf⟩ := posOf_connectTransactions (by rw [hfile]; exact hne)
    (CBlock.checked_of_checkBlock hcheck).txids_nodup hloop
  obtain ⟨txindex, hlook, htxpos⟩ := Option.map_eq_some_iff.mp (hposOf i tx hi)
  simp only [hfile, hpos, hwritten] at htxpos
  rw [← hoffset] at htxpos
  -- the entry, its place, and the bytes that stand there
  refine ⟨txindex, ?_, ?_, ?_, ?_, ?_, ?_, ?_⟩
  · exact (congrFun (lookup_writeQueued st env.txIndex) _).trans hlook
  · rw [htxpos]
  · rw [htxpos, hwritten]
  · rw [block.firstTxPos_eq, hwritten, Nat.mod_eq_of_lt hstart, txPositions_get hstart hi, htxpos, ← hoffset,
      Nat.mod_eq_of_lt hbound]
  · rw [htxpos]
  · rw [hcontents]
    exact ⟨(block.vtx.drop (i + 1)).flatMap CTransaction.serialize ++ string.enc block.vchBlockSig,
      by simp only [List.append_assoc]⟩
  · -- what is appended later does not change them
    intro d'' hprefix
    obtain ⟨later, hlater⟩ := hprefix
    have hthere : d''.contents nFile = (d.contents nFile ++ block.recordHeader P ++ block.serializedBefore i) ++
        (tx.serialize ++ ((block.vtx.drop (i + 1)).flatMap CTransaction.serialize ++
          (string.enc block.vchBlockSig ++ later))) := by
      rw [← hlater, hcontents]
      simp only [List.append_assoc]
    have hmem := List.mem_of_getElem? hi
    rw [htxpos]
    exact BlockFileBytes.readFromDisk_of_contents (CBlock.fits_of_checkBlock hcheck hmem (hrange tx hmem)) hne
      hthere _

namespace Sample

/-- A block with nothing but a coinbase, on no block. -/
def firstBlock : CBlock := blockOn [] 1 [coinBase 1]

/-- A transaction of one input and one output. -/
theorem numbersFit_of_single {tx : CTransaction} {txin : CTxIn} {txout : CTxOut} (hvin : tx.vin = [txin])
    (hvout : tx.vout = [txout]) (hprevout : txin.prevout.Fits)
    (hnumbers : (-2 ^ 31 ≤ tx.nVersion ∧ tx.nVersion < 2 ^ 31) ∧ tx.nTime < 2 ^ 32 ∧ txin.nSequence < 2 ^ 32 ∧
      (-2 ^ 63 ≤ txout.nValue ∧ txout.nValue < 2 ^ 63) ∧ tx.nLockTime < 2 ^ 32) : tx.NumbersFit := by
  obtain ⟨hversion, htime, hsequence, hvalue, hlock⟩ := hnumbers
  refine ⟨hversion, htime, ?_, ?_, hlock⟩
  · rw [hvin]
    exact List.forall_mem_singleton.mpr ⟨hprevout, hsequence⟩
  · rw [hvout]
    exact List.forall_mem_singleton.mpr hvalue

/-- A transaction of the first block, and one of the second block that spends it. -/
def fundingTx : CTransaction where
  nTime := params.nTimeGenesis + 1
  vin := [⟨⟨7, 0⟩, [], UINT_MAX⟩]
  vout := [⟨2000000, keyScript⟩]

def paymentTx : CTransaction where
  nTime := params.nTimeGenesis + 2
  vin := [⟨⟨params.hashTx fundingTx, 0⟩, [1, 1], UINT_MAX⟩]
  vout := [⟨1900000, keyScript⟩]

/-- Two blocks of two transactions each; the second has a signature of five bytes. -/
def fundingBlock : CBlock := blockOn [] 1 [coinBase 1, fundingTx]

def fundingChain : BlockPtr := [fundingBlock.newIndex params [] 1 8]

def paymentBlock : CBlock :=
  { blockOn fundingChain 2 [coinBase 2, paymentTx] with vchBlockSig := [48, 3, 2, 1, 1] }

/-- The first block is on disk, and its second transaction in the index. -/
def fundingBytes : Option (BlockFileBytes × ℕ × ℕ) := BlockFileBytes.writeToDisk params {} fundingBlock

def paymentEnv : ConnectEnv where
  files := { blocks := [⟨1, 8, fundingBlock⟩] }
  txIndex := (∅ : TxIndexMap).insert (params.hashTx fundingTx)
    (CTxIndex.new ⟨1, 8, 8 + 80 + 1 + (coinBase 1).getSerializeSize⟩ 1)
  mempool := ∅
  nBestHeight := 0

/-- The sample block has numbers that fit their widths. -/
theorem numbersFit_paymentBlock : ∀ tx ∈ paymentBlock.vtx, tx.NumbersFit := by
  have hcoinBase : (coinBase 2).NumbersFit := numbersFit_of_single rfl rfl fits_null (by decide)
  have hpayment : paymentTx.NumbersFit := numbersFit_of_single rfl rfl ⟨by decide, by decide⟩ (by decide)
  exact List.forall_mem_cons.mpr ⟨hcoinBase, List.forall_mem_singleton.mpr hpayment⟩

end Sample

/-- The second block of a file: its second transaction stands behind the first block, the header and the coinbase. -/
theorem CBlock.recorded_positions_paymentBlock :
    ∃ (d d' : BlockFileBytes) (nBlockPos : ℕ) (st : ConnectState) (txindex : CTxIndex),
      Sample.fundingBytes = some (d, 1, 8) ∧
      d.writeToDisk Sample.params Sample.paymentBlock = some (d', 1, nBlockPos) ∧
      Sample.paymentBlock.connectChecks Sample.params Sample.paymentEnv 2000000000
        (Sample.paymentBlock.newIndex Sample.params Sample.fundingChain 1 nBlockPos) Sample.fundingChain = .ok st ∧
      (st.writeQueued Sample.paymentEnv.txIndex).lookup (Sample.params.hashTx Sample.paymentTx) = some txindex ∧
      txindex.pos.nBlockPos = (d.contents 1).length + 8 ∧
      txindex.pos.nTxPos = (d.contents 1).length + 8 + 80 + 1 + (Sample.coinBase 2).getSerializeSize ∧
      d'.readFromDisk txindex.pos = some Sample.paymentTx := by
  have heval : (Sample.fundingBytes.bind fun w =>
      (w.1.writeToDisk Sample.params Sample.paymentBlock).map fun w' => decide (w.2 = (1, 8) ∧ w'.2.1 = 1 ∧
        w'.2.2 = (w.1.contents 1).length + 8 ∧ (w'.1.contents 1).length < 2 ^ 32 ∧
        (Sample.paymentBlock.connectChecks Sample.params Sample.paymentEnv 2000000000
          (Sample.paymentBlock.newIndex Sample.params Sample.fundingChain 1 w'.2.2)
          Sample.fundingChain).toOption.isSome = true ∧
        (CBlock.txPositions (Sample.paymentBlock.firstTxPos w'.2.2) Sample.paymentBlock.vtx)[1]? =
          some ((w.1.contents 1).length + 8 + 80 + 1 + (Sample.coinBase 2).getSerializeSize))) = some true := by
    decide +kernel
  -- the place of both blocks and the sizes are evaluated
  obtain ⟨⟨d, nFile, nBlockPos⟩, hd, hmap⟩ := Option.bind_eq_some_iff.mp heval
  obtain ⟨⟨d', nFile', nBlockPos'⟩, hwrite, hfacts⟩ := Option.map_eq_some_iff.mp hmap
  obtain ⟨hplace, hfile', hblockPos, hlen, hok, hcomputed⟩ := of_decide_eq_true hfacts
  cases hplace
  cases hfile'
  obtain ⟨st, hst⟩ := Option.isSome_iff_exists.mp hok
  have hconnect := Result.eq_ok_of_toOption hst
  -- the positions are those of the general theorem
  obtain ⟨txindex, hlook, -, hpos, htx, -, -, hread⟩ := CBlock.recorded_positions
    Sample.numbersFit_paymentBlock hwrite hlen rfl rfl hconnect 1 Sample.paymentTx rfl
  exact ⟨d, d', nBlockPos', st, txindex, hd, hwrite, hconnect, hlook, hpos.trans hblockPos,
    Option.some.inj (htx.symm.trans hcomputed), hread d' (List.prefix_refl _)⟩

/-! ### The files as lists of blocks -/

/-- The bytes of a stored block with what is in front of it. -/
def StoredBlock.record (P : Params) (r : StoredBlock) : List UInt8 :=
  r.block.recordHeader P ++ r.block.serialize SER_DISK

/-- The bytes of a record. -/
theorem StoredBlock.length_record (P : Params) (r : StoredBlock) :
    (r.record P).length = 8 + r.block.getSerializeSize := by
  have hlen := r.block.length_serialize SER_DISK
  rw [if_pos (by decide)] at hlen
  rw [record, List.length_append, r.block.length_recordHeader, hlen]

namespace BlockFileBytes

/-- The bytes of a file, from the stored blocks, newest block first. -/
def fileBytes (P : Params) (nFile : ℕ) : List StoredBlock → List UInt8
  | [] => []
  | r :: older => fileBytes P nFile older ++ if r.nFile = nFile then r.record P else []

/-- Every block stands where its position says. -/
def InPlace (P : Params) : List StoredBlock → Prop
  | [] => True
  | r :: older => r.nBlockPos = (fileBytes P r.nFile older).length + 8 ∧ InPlace P older

/-- The files as bytes hold the stored blocks and nothing else. -/
structure Shows (P : Params) (files : BlockFiles) (d : BlockFileBytes) : Prop where
  nCurrent : d.nCurrentBlockFile = files.nCurrentBlockFile
  contents_eq : ∀ nFile, d.contents nFile = fileBytes P nFile files.blocks
  inPlace : InPlace P files.blocks

variable {P : Params} {files : BlockFiles} {d : BlockFileBytes} {block : CBlock}

/-- No files. -/
theorem Shows.empty (P : Params) : Shows P {} {} := ⟨rfl, fun _ => rfl, trivial⟩

/-- `ftell` at the end of a file. -/
theorem InPlace.fileSize_eq (h : InPlace P files.blocks) (nFile : ℕ) :
    files.fileSize nFile = (fileBytes P nFile files.blocks).length := by
  obtain ⟨nCurrent, blocks⟩ := files
  simp only [BlockFiles.fileSize] at h ⊢
  induction blocks with
  | nil => rfl
  | cons r older ih =>
    obtain ⟨hpos, hold⟩ := h
    rw [List.find?_cons, fileBytes, List.length_append, ← ih hold]
    by_cases hfile : r.nFile = nFile
    · subst hfile
      rw [ih hold, decide_eq_true rfl, if_pos rfl, r.length_record]
      show r.nBlockPos + r.block.getSerializeSize = _
      omega
    · rw [decide_eq_false hfile, if_neg hfile]
      rfl

/-- A block in the bytes of its file. -/
theorem InPlace.fileBytes_of_mem {blocks : List StoredBlock} (h : InPlace P blocks) {r : StoredBlock}
    (hr : r ∈ blocks) : ∃ before after, fileBytes P r.nFile blocks = before ++ (r.record P ++ after) ∧
      r.nBlockPos = before.length + 8 := by
  induction blocks with
  | nil => exact absurd hr List.not_mem_nil
  | cons newest older ih =>
    obtain ⟨hpos, hold⟩ := h
    rw [fileBytes]
    rcases List.mem_cons.mp hr with rfl | hr
    · refine ⟨fileBytes P r.nFile older, [], ?_, hpos⟩
      rw [if_pos rfl, List.append_nil]
    · obtain ⟨before, after, hbytes, hat⟩ := ih hold hr
      exact ⟨before, after ++ _, by rw [hbytes, List.append_assoc, List.append_assoc], hat⟩

/-- `AppendBlockFile` searches upwards for a file with room. -/
theorem appendBlockFile_eq_searchUp (files : BlockFiles) (nRounds nFile : ℕ) :
    files.appendBlockFile nRounds nFile = searchUp (fun k => k = UINT_MAX)
      (fun k => files.fileSize k < BlockFiles.maxFileSize) nRounds nFile := by
  induction nRounds generalizing nFile with
  | zero => simp [BlockFiles.appendBlockFile, searchUp]
  | succ n ih => simp [BlockFiles.appendBlockFile, searchUp, ih]

/-- And so on the files of bytes. -/
theorem appendBlockFileBytes_eq_searchUp (d : BlockFileBytes) (nRounds nFile : ℕ) :
    d.appendBlockFile nRounds nFile = searchUp (fun k => k = UINT_MAX)
      (fun k => (d.contents k).length < BlockFiles.maxFileSize) nRounds nFile := by
  induction nRounds generalizing nFile with
  | zero => simp [appendBlockFile, searchUp]
  | succ n ih => simp [appendBlockFile, searchUp, ih]

/-- Only files that blocks were stored in are full. -/
theorem appendBlockFile_eq_some_iff {nFile₀ nFile : ℕ} :
    files.appendBlockFile files.blocks.length nFile₀ = some nFile ↔
      FirstGood (fun k => k = UINT_MAX) (fun k => files.fileSize k < BlockFiles.maxFileSize) nFile₀ nFile := by
  rw [appendBlockFile_eq_searchUp]
  refine @searchUp_eq_some_iff _ _ _ _ _ (files.blocks.map StoredBlock.nFile).toFinset (fun k _ hfull => ?_)
    ((List.toFinset_card_le _).trans (List.length_map _).le)
  rw [List.mem_toFinset, List.mem_map]
  by_contra hnone
  have hfind : files.blocks.find? (fun r => r.nFile = k) = none :=
    List.find?_eq_none.mpr (fun r hr heq => hnone ⟨r, hr, of_decide_eq_true heq⟩)
  rw [BlockFiles.fileSize, hfind] at hfull
  exact absurd hfull (by decide)

/-- It finds the first one. -/
theorem appendBlockFileBytes_eq_some_iff {nFile₀ nFile : ℕ} :
    d.appendBlockFile d.files.keys.length nFile₀ = some nFile ↔
      FirstGood (fun k => k = UINT_MAX) (fun k => (d.contents k).length < BlockFiles.maxFileSize) nFile₀ nFile := by
  rw [appendBlockFileBytes_eq_searchUp]
  refine @searchUp_eq_some_iff _ _ _ _ _ d.files.keys.toFinset (fun k _ hfull => ?_) (List.toFinset_card_le _)
  rw [List.mem_toFinset]
  by_contra hnone
  have hlook : d.files.lookup k = none := AList.lookup_eq_none.mpr hnone
  rw [contents, hlook] at hfull
  exact absurd hfull (by decide)

/-- So both find the same file. -/
theorem Shows.appendBlockFile_eq (h : Shows P files d) :
    d.appendBlockFile d.files.keys.length d.nCurrentBlockFile =
      files.appendBlockFile files.blocks.length files.nCurrentBlockFile := by
  have hsize : (fun k => decide ((d.contents k).length < BlockFiles.maxFileSize)) =
      fun k => decide (files.fileSize k < BlockFiles.maxFileSize) := by
    funext k
    rw [h.contents_eq, h.inPlace.fileSize_eq]
  apply Option.ext
  intro nFile
  rw [appendBlockFileBytes_eq_some_iff, appendBlockFile_eq_some_iff, hsize, h.nCurrent]

/-- The files after one is written. -/
theorem contents_insert (d : BlockFileBytes) (nFile : ℕ) (bytes : List UInt8) (nFile' : ℕ) :
    contents ⟨nFile, d.files.insert nFile bytes⟩ nFile' = if nFile' = nFile then bytes else d.contents nFile' := by
  rw [contents, Map.lookup_insert_eq]
  split_ifs
  · rfl
  · rfl

/-- **The write is refined**: both succeed or both fail, with the same file and position. -/
theorem Shows.writeToDisk (h : Shows P files d) (block : CBlock) :
    Option.Rel (fun r r' => Shows P r.1 r'.1 ∧ r.2 = r'.2) (files.writeToDisk block) (d.writeToDisk P block) := by
  rw [BlockFiles.writeToDisk, BlockFileBytes.writeToDisk, h.appendBlockFile_eq]
  cases hfile : files.appendBlockFile files.blocks.length files.nCurrentBlockFile with
  | none => exact Option.Rel.none
  | some nFile =>
    -- the chosen file has room, and both know its size
    have hroom := of_decide_eq_true (appendBlockFile_eq_some_iff.mp hfile).isGood
    have hsize : files.fileSize nFile = (fileBytes P nFile files.blocks).length := h.inPlace.fileSize_eq nFile
    have hheader := block.length_recordHeader P
    unfold CBlock.recordHeader at hheader
    refine Option.Rel.some ⟨⟨rfl, fun nFile' => ?_, ?_, h.inPlace⟩, ?_⟩
    · dsimp only
      rw [contents_insert, fileBytes]
      split_ifs with heq heq' heq'
      · subst heq
        rw [h.contents_eq, StoredBlock.record, CBlock.recordHeader, List.append_assoc]
      · exact absurd heq.symm heq'
      · exact absurd heq'.symm heq
      · rw [h.contents_eq, List.append_nil]
    · dsimp only
      rw [hsize]
    · -- a file with room is small
      have hmax : BlockFiles.maxFileSize + 8 ≤ 2 ^ 32 := by decide
      dsimp only
      rw [List.length_append, hheader, h.contents_eq, ← hsize, Nat.mod_eq_of_lt (by omega)]

/-- What `WriteToDisk` does to the blocks it does to the bytes. -/
theorem Shows.exists_writeToDisk (h : ∃ d, Shows P files d) {files' : BlockFiles} {nFile nBlockPos : ℕ}
    (hw : files.writeToDisk block = some (files', nFile, nBlockPos)) : ∃ d, Shows P files' d := by
  obtain ⟨d, hd⟩ := h
  have hrel := hd.writeToDisk block
  rw [hw] at hrel
  generalize d.writeToDisk P block = r at hrel
  cases hrel with
  | some hshows => exact ⟨_, hshows.1⟩

/-- A transaction read at an offset is one of the block. -/
theorem txAt_eq_some {nPos nTxPos : ℕ} {vtx : List CTransaction} {tx : CTransaction}
    (h : txAt nPos vtx nTxPos = some tx) : ∃ i, vtx[i]? = some tx ∧ nTxPos = txOffset nPos (vtx.take i) := by
  induction vtx generalizing nPos with
  | nil => exact absurd h (by simp [txAt])
  | cons first vtx ih =>
    rw [txAt] at h
    split_ifs at h with heq
    · cases h
      exact ⟨0, rfl, heq.symm⟩
    · obtain ⟨i, hi, hpos⟩ := ih h
      refine ⟨i + 1, hi, ?_⟩
      rw [hpos]
      simp only [txOffset, List.take_succ_cons, List.map_cons, List.sum_cons, Nat.add_assoc]

/-- **The read is refined**: a transaction of a stored block is read from its bytes. -/
theorem Shows.readFromDisk (h : Shows P files d) {pos : CDiskTxPos} {tx : CTransaction}
    (hread : files.readTx pos = some tx) (hfits : tx.Fits) (hfile : pos.isNull = false) :
    d.readFromDisk pos = some tx := by
  obtain ⟨r, hr, hat⟩ := List.exists_of_findSome?_eq_some hread
  split_ifs at hat with heq
  obtain ⟨i, hi, hpos⟩ := txAt_eq_some hat
  obtain ⟨before, after, hbytes, hblockPos⟩ := h.inPlace.fileBytes_of_mem hr
  rw [StoredBlock.record, r.block.serialize_at hi] at hbytes
  have hthere : d.contents pos.nFile = (before ++ r.block.recordHeader P ++ r.block.serializedBefore i) ++
      (tx.serialize ++ ((r.block.vtx.drop (i + 1)).flatMap CTransaction.serialize ++
        (string.enc r.block.vchBlockSig ++ after))) := by
    rw [h.contents_eq, ← heq, hbytes]
    simp only [List.append_assoc]
  have hoffset : pos.nTxPos = (before ++ r.block.recordHeader P ++ r.block.serializedBefore i).length := by
    rw [hpos, StoredBlock.firstTxPos, hblockPos, txOffset, List.length_append, List.length_append,
      r.block.length_recordHeader, r.block.length_serializedBefore]
    omega
  have hread' := readFromDisk_of_contents hfits (of_decide_eq_false hfile) hthere pos.nBlockPos
  rwa [← hoffset] at hread'

end BlockFileBytes

/-- In every reachable state there are bytes behind the block files, and every connected transaction is read from
its position in them. -/
theorem ChainState.Reachable.shows {P : Params} {s : ChainState} (h : Reachable P s) :
    ∃ d, BlockFileBytes.Shows P s.files d ∧
      ∀ c ∈ connectedTxs s.files s.tip, c.tx.Fits → d.readFromDisk c.pos = some c.tx := by
  have hshows : ∃ d, BlockFileBytes.Shows P s.files d := by
    induction h with
    | refl =>
      exact BlockFileBytes.Shows.exists_writeToDisk ⟨{}, BlockFileBytes.Shows.empty P⟩
        (show BlockFiles.writeToDisk {} P.genesisBlock = _ from rfl)
    | tail _ hstep ih =>
      cases hstep with
      | accept _ _ _ _ _ hw => exact BlockFileBytes.Shows.exists_writeToDisk ih hw
      | store hw => exact BlockFileBytes.Shows.exists_writeToDisk ih hw
      | connect _ _ _ => exact ih
      | disconnect _ _ _ _ => exact ih
  obtain ⟨d, hd⟩ := hshows
  refine ⟨d, hd, fun c hc hfits => ?_⟩
  have hstored := (h.inv.tree.treeOk _ h.inv.tree.tip_mem).isStored h.inv.tree.files c hc
  exact hd.readFromDisk hstored.readTx_eq hfits hstored.not_null

end Peershares
