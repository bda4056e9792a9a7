import Peershares.Framework.Assoc
import Peershares.Model.BlockIndex

/-!
# Block files and the transaction database

The block files `blkNNNN.dat` and the database `blkindex.dat` (`CTxDB`).

* A block file is the list of blocks appended to it with their positions. A transaction is read at
  an absolute file offset; the offsets at which transactions start are those `WriteToDisk`
  produces, and no other offset is ever read.
* The database is a committed state under a stack of open transactions, each holding the state it
  would commit: `TxnBegin` pushes, `TxnCommit` and `TxnAbort` pop, and every read and write goes to
  the top of the stack.
-/

open Framework

namespace Peershares

/-! ### Positions on disk -/

structure CDiskTxPos where
  nFile : Nat
  nBlockPos : Nat
  nTxPos : Nat
deriving DecidableEq, Repr

namespace CDiskTxPos

/-- `SetNull`: no position; as a `vSpent` entry, not spent. -/
def null : CDiskTxPos := ⟨UINT_MAX, 0, 0⟩

def isNull (pos : CDiskTxPos) : Bool := pos.nFile = UINT_MAX

/-- The position that stands for a transaction of the memory pool. -/
def inMempool : CDiskTxPos := ⟨1, 1, 1⟩

/-- The null position. -/
@[simp] theorem isNull_null : null.isNull = true := rfl

end CDiskTxPos

/-- Where a transaction is stored and which transactions spend its outputs. -/
structure CTxIndex where
  pos : CDiskTxPos
  vSpent : List CDiskTxPos
deriving DecidableEq, Repr

namespace CTxIndex

/-- `CTxIndex(pos, nOutputs)`: nothing spent yet. -/
def new (pos : CDiskTxPos) (nOutputs : Nat) : CTxIndex :=
  ⟨pos, List.replicate nOutputs CDiskTxPos.null⟩

end CTxIndex

/-! ### Block files -/

/-- A block in a block file, with the position of its first byte. -/
structure StoredBlock where
  nFile : Nat
  nBlockPos : Nat
  block : CBlock
deriving DecidableEq, Repr

namespace StoredBlock

/-- The offset of the first transaction: behind the header and the transaction count. -/
def firstTxPos (r : StoredBlock) : Nat :=
  r.nBlockPos + CBlock.headerSize + getSizeOfCompactSize r.block.vtx.length

/-- The offset behind the block. -/
def endPos (r : StoredBlock) : Nat := r.nBlockPos + r.block.getSerializeSize

end StoredBlock

/-- The transaction that starts at offset `nTxPos` in a row of transactions from `nPos` on. -/
def txAt : Nat → List CTransaction → Nat → Option CTransaction
  | _, [], _ => none
  | nPos, tx :: vtx, nTxPos =>
    if nPos = nTxPos then some tx else txAt (nPos + tx.getSerializeSize) vtx nTxPos

/-- The offset of the transaction behind `vtx` in a row of transactions from `nPos` on. -/
def txOffset (nPos : Nat) (vtx : List CTransaction) : Nat :=
  nPos + (vtx.map CTransaction.getSerializeSize).sum

/-- A transaction is found at the offset behind those in front of it. -/
theorem txAt_txOffset (nPos : Nat) (before : List CTransaction) (tx : CTransaction)
    (after : List CTransaction) :
    txAt nPos (before ++ tx :: after) (txOffset nPos before) = some tx := by
  induction before generalizing nPos with
  | nil => simp [txAt, txOffset]
  | cons t before ih =>
    have hpos := t.getSerializeSize_pos
    have hne : nPos ≠ txOffset nPos (t :: before) := by
      simp only [txOffset, List.map_cons, List.sum_cons]
      omega
    rw [List.cons_append, txAt, if_neg hne]
    have hoff : txOffset nPos (t :: before) = txOffset (nPos + t.getSerializeSize) before := by
      simp only [txOffset, List.map_cons, List.sum_cons]
      omega
    rw [hoff]
    exact ih _

/-- Transactions are found inside their row only. -/
theorem txAt_range {nPos nTxPos : Nat} {vtx : List CTransaction} {tx : CTransaction}
    (h : txAt nPos vtx nTxPos = some tx) : nPos ≤ nTxPos ∧ nTxPos < txOffset nPos vtx := by
  induction vtx generalizing nPos with
  | nil => exact absurd h (by simp [txAt])
  | cons t vtx ih =>
    have hpos := t.getSerializeSize_pos
    simp only [txOffset, List.map_cons, List.sum_cons] at ih ⊢
    rw [txAt] at h
    split_ifs at h with heq
    · omega
    · have := ih h
      omega

/-- The transactions come after the header. -/
theorem StoredBlock.nBlockPos_le_firstTxPos (r : StoredBlock) : r.nBlockPos ≤ r.firstTxPos := by
  simp only [StoredBlock.firstTxPos]
  omega

/-- And before the end of the block. -/
theorem StoredBlock.txOffset_le_endPos (r : StoredBlock) :
    txOffset r.firstTxPos r.block.vtx ≤ r.endPos := by
  simp only [txOffset, StoredBlock.firstTxPos, StoredBlock.endPos, CBlock.getSerializeSize]
  omega

/-- The block files, newest block first, and the file that is being filled. -/
structure BlockFiles where
  nCurrentBlockFile : Nat := 1
  blocks : List StoredBlock := []
deriving DecidableEq, Repr

namespace BlockFiles

/-- `ftell` at the end of a file. -/
def fileSize (files : BlockFiles) (nFile : Nat) : Nat :=
  match files.blocks.find? (fun r => r.nFile = nFile) with
  | none => 0
  | some r => r.endPos

/-- `0x7F000000 - MAX_SIZE`: a file above it is not appended to. -/
def maxFileSize : Nat := 0x7F000000 - 0x02000000

/-- `AppendBlockFile`: the first file from the current one on that has room. At most one file per
stored block is full; the number `-1` cannot be opened. -/
def appendBlockFile (files : BlockFiles) : Nat → Nat → Option Nat
  | 0, nFile => if nFile = UINT_MAX then none else some nFile
  | nRounds + 1, nFile =>
    if nFile = UINT_MAX then none
    else if files.fileSize nFile < maxFileSize then some nFile
    else appendBlockFile files nRounds (nFile + 1)

/-- `WriteToDisk`: the block is appended behind the message start and its size, eight bytes in
all; the file number and the position are returned. -/
def writeToDisk (files : BlockFiles) (block : CBlock) : Option (BlockFiles × Nat × Nat) :=
  (appendBlockFile files files.blocks.length files.nCurrentBlockFile).map (fun nFile =>
    let nBlockPos := files.fileSize nFile + 8
    ({ nCurrentBlockFile := nFile, blocks := ⟨nFile, nBlockPos, block⟩ :: files.blocks },
      nFile, nBlockPos))

/-- The block stored at a position. -/
def readBlock (files : BlockFiles) (nFile nBlockPos : Nat) : Option CBlock :=
  (files.blocks.find? (fun r => r.nFile = nFile && r.nBlockPos = nBlockPos)).map StoredBlock.block

/-- `CTransaction::ReadFromDisk(pos)`: only the file and the offset of the transaction count. -/
def readTx (files : BlockFiles) (pos : CDiskTxPos) : Option CTransaction :=
  files.blocks.findSome? (fun r =>
    if r.nFile = pos.nFile then txAt r.firstTxPos r.block.vtx pos.nTxPos else none)

/-- Blocks of one file follow each other, and every position is behind a block header of eight
bytes in a file that can be opened. -/
structure WellFormed (files : BlockFiles) : Prop where
  disjoint : files.blocks.Pairwise (fun newer older =>
    newer.nFile = older.nFile → older.endPos ≤ newer.nBlockPos)
  nFile_ne : ∀ r ∈ files.blocks, r.nFile ≠ UINT_MAX
  nBlockPos_ge : ∀ r ∈ files.blocks, 8 ≤ r.nBlockPos

/-- A file number that was found is not the reserved one. -/
theorem appendBlockFile_ne {files : BlockFiles} {nRounds nFile nFileRet : Nat}
    (h : files.appendBlockFile nRounds nFile = some nFileRet) : nFileRet ≠ UINT_MAX := by
  induction nRounds generalizing nFile with
  | zero =>
    rw [appendBlockFile] at h
    split_ifs at h with hmax
    cases h
    exact hmax
  | succ n ih =>
    rw [appendBlockFile] at h
    split_ifs at h with hmax hroom
    · cases h
      exact hmax
    · exact ih h

/-- What `WriteToDisk` does. -/
theorem writeToDisk_eq_some {files files' : BlockFiles} {block : CBlock} {nFile nBlockPos : Nat}
    (h : files.writeToDisk block = some (files', nFile, nBlockPos)) :
    nFile ≠ UINT_MAX ∧ nBlockPos = files.fileSize nFile + 8 ∧
      files'.blocks = ⟨nFile, nBlockPos, block⟩ :: files.blocks := by
  simp only [writeToDisk, Option.map_eq_some_iff, Prod.mk.injEq] at h
  obtain ⟨_, hfile, rfl, rfl, rfl⟩ := h
  exact ⟨appendBlockFile_ne hfile, rfl, rfl⟩

/-- Each block lies inside its file. -/
theorem WellFormed.endPos_le_fileSize {files : BlockFiles} (h : files.WellFormed) {r : StoredBlock}
    (hr : r ∈ files.blocks) : r.endPos ≤ files.fileSize r.nFile := by
  obtain ⟨nCurrent, blocks⟩ := files
  obtain ⟨hdisj, -, -⟩ := h
  simp only [fileSize] at hdisj hr ⊢
  induction blocks with
  | nil => simp at hr
  | cons newest blocks ih =>
    rw [List.find?_cons]
    rcases List.mem_cons.mp hr with rfl | hr
    · simp
    · obtain ⟨hnew, hold⟩ := List.pairwise_cons.mp hdisj
      by_cases hfile : newest.nFile = r.nFile
      · have hle := hnew r hr hfile
        simp only [hfile, decide_true, StoredBlock.endPos] at hle ⊢
        omega
      · simpa only [hfile, decide_false] using ih hr hold

/-- `WriteToDisk` appends without an overlap. -/
theorem WellFormed.writeToDisk {files files' : BlockFiles} {block : CBlock} {nFile nBlockPos : Nat}
    (h : files.WellFormed) (hw : files.writeToDisk block = some (files', nFile, nBlockPos)) :
    files'.WellFormed := by
  obtain ⟨hfile, rfl, hblocks⟩ := writeToDisk_eq_some hw
  refine ⟨?_, ?_, ?_⟩
  · rw [hblocks, List.pairwise_cons]
    refine ⟨fun r hr heq => ?_, h.disjoint⟩
    have := h.endPos_le_fileSize hr
    simp only at heq ⊢
    rw [heq]
    omega
  · rw [hblocks]
    exact List.forall_mem_cons.mpr ⟨hfile, h.nFile_ne⟩
  · rw [hblocks]
    exact List.forall_mem_cons.mpr ⟨by simp, h.nBlockPos_ge⟩

/-- A stored block is read back. -/
theorem WellFormed.readBlock_of_mem {files : BlockFiles} (h : files.WellFormed) {r : StoredBlock}
    (hr : r ∈ files.blocks) : files.readBlock r.nFile r.nBlockPos = some r.block := by
  obtain ⟨nCurrent, blocks⟩ := files
  obtain ⟨hdisj, -, -⟩ := h
  simp only [readBlock] at hdisj hr ⊢
  induction blocks with
  | nil => simp at hr
  | cons newest blocks ih =>
    rw [List.find?_cons]
    rcases List.mem_cons.mp hr with rfl | hr
    · simp
    · obtain ⟨hnew, hold⟩ := List.pairwise_cons.mp hdisj
      -- a newer block of the same file starts behind the end of this one
      have hne : (newest.nFile = r.nFile && newest.nBlockPos = r.nBlockPos) = false := by
        by_contra hc
        simp only [Bool.not_eq_false, Bool.and_eq_true, decide_eq_true_eq] at hc
        have hle := hnew r hr hc.1
        simp only [StoredBlock.endPos, CBlock.getSerializeSize, CBlock.headerSize] at hle
        omega
      simpa only [hne] using ih hr hold

/-- A block that was read is in the files. -/
theorem mem_of_readBlock {files : BlockFiles} {nFile nBlockPos : Nat} {block : CBlock}
    (h : files.readBlock nFile nBlockPos = some block) :
    ⟨nFile, nBlockPos, block⟩ ∈ files.blocks := by
  obtain ⟨r, hr, rfl⟩ := Option.map_eq_some_iff.mp h
  have hpos := List.find?_some hr
  simp only [Bool.and_eq_true, decide_eq_true_eq] at hpos
  rw [← hpos.1, ← hpos.2]
  exact List.mem_of_find?_eq_some hr

/-- In well formed files a block is read exactly from its place. -/
theorem WellFormed.readBlock_eq_some {files : BlockFiles} (h : files.WellFormed)
    {nFile nBlockPos : Nat} {block : CBlock} :
    files.readBlock nFile nBlockPos = some block ↔ ⟨nFile, nBlockPos, block⟩ ∈ files.blocks :=
  ⟨mem_of_readBlock, fun hr => h.readBlock_of_mem hr⟩

/-- A transaction of a stored block is read back at its offset. -/
theorem WellFormed.readTx_of_mem {files : BlockFiles} (h : files.WellFormed) {r : StoredBlock}
    (hr : r ∈ files.blocks) {before after : List CTransaction} {tx : CTransaction}
    (hvtx : r.block.vtx = before ++ tx :: after) (nBlockPos : Nat) :
    files.readTx ⟨r.nFile, nBlockPos, txOffset r.firstTxPos before⟩ = some tx := by
  have hat : txAt r.firstTxPos r.block.vtx (txOffset r.firstTxPos before) = some tx := by
    rw [hvtx]
    exact txAt_txOffset _ _ _ _
  obtain ⟨nCurrent, blocks⟩ := files
  obtain ⟨hdisj, -, -⟩ := h
  simp only [readTx] at hdisj hr ⊢
  induction blocks with
  | nil => simp at hr
  | cons newest blocks ih =>
    rw [List.findSome?_cons]
    rcases List.mem_cons.mp hr with rfl | hr
    · simp [hat]
    · obtain ⟨hnew, hold⟩ := List.pairwise_cons.mp hdisj
      -- the offset lies in front of every newer block of the same file
      have hnone : (if newest.nFile = r.nFile then
          txAt newest.firstTxPos newest.block.vtx (txOffset r.firstTxPos before) else none) = none := by
        split_ifs with hfile
        · rw [Option.eq_none_iff_forall_not_mem]
          intro t ht
          have hstart := newest.nBlockPos_le_firstTxPos.trans (txAt_range ht).1
          have hend := (txAt_range hat).2.trans_le r.txOffset_le_endPos
          have hle := hnew r hr hfile
          omega
        · rfl
      rw [hnone]
      exact ih hr hold

end BlockFiles

/-! ### The database -/

/-- A "blockindex" record: the index entry with the hashes of its neighbours. -/
structure CDiskBlockIndex where
  index : CBlockIndex
  hashPrev : Uint256
  hashNext : Uint256
  nMint : Int
  nMoneySupply : Int
deriving DecidableEq, Repr

/-- What the database holds. -/
structure TxDbData where
  /-- The "tx" records. -/
  txIndex : Map Uint256 CTxIndex := ∅
  /-- The "blockindex" records. -/
  blockIndex : Map Uint256 CDiskBlockIndex := ∅
  hashBestChain : Option Uint256 := none
  hashSyncCheckpoint : Option Uint256 := none

structure CTxDB where
  committed : TxDbData := {}
  /-- The open transactions, innermost first. -/
  vTxn : List TxDbData := []

namespace CTxDB

/-- The state reads see: that of the innermost open transaction. -/
def view (txdb : CTxDB) : TxDbData := txdb.vTxn.headD txdb.committed

/-- A write. -/
def update (txdb : CTxDB) (f : TxDbData → TxDbData) : CTxDB :=
  match txdb.vTxn with
  | [] => { txdb with committed := f txdb.committed }
  | txn :: vTxn => { txdb with vTxn := f txn :: vTxn }

def txnBegin (txdb : CTxDB) : CTxDB := { txdb with vTxn := txdb.view :: txdb.vTxn }

/-- `TxnCommit`: the state of the innermost transaction replaces the one below it. -/
def txnCommit (txdb : CTxDB) : CTxDB :=
  match txdb.vTxn with
  | [] => txdb
  | [txn] => { committed := txn, vTxn := [] }
  | txn :: _ :: vTxn => { txdb with vTxn := txn :: vTxn }

def txnAbort (txdb : CTxDB) : CTxDB := { txdb with vTxn := txdb.vTxn.tail }

end CTxDB

end Peershares
