import Peershares.Model.Connect
import Peershares.Model.Wire

/-!
# Block files as bytes

The files `blkNNNN.dat` as `AppendBlockFile`, `WriteToDisk` and `ReadFromDisk` see them, and the positions that
`ConnectBlock` computes without reading the file. Positions are `unsigned int`, as in the source.

`Model.TxDb` has the same files as lists of stored blocks. A write that fails half way is not modelled.
-/

open Framework

namespace Peershares

/-- `-` on an `unsigned int`. -/
def subU32 (a b : Nat) : Nat := (a + (2 ^ 32 - b % 2 ^ 32)) % 2 ^ 32

/-! ### Reading and writing -/

/-- The files by number. A file that is not there has no bytes: to be appended to, it is created. -/
structure BlockFileBytes where
  nCurrentBlockFile : Nat := 1
  files : Map Nat (List UInt8) := ∅

namespace BlockFileBytes

def contents (d : BlockFileBytes) (nFile : Nat) : List UInt8 := (d.files.lookup nFile).getD []

/-- `AppendBlockFile`: the first file from `nCurrentBlockFile` on that has room. A full file is there, so there
are no more rounds than files. -/
def appendBlockFile (d : BlockFileBytes) : Nat → Nat → Option Nat
  | 0, nFile => if nFile = UINT_MAX then none else some nFile
  | nRounds + 1, nFile =>
    if nFile = UINT_MAX then none
    else if (d.contents nFile).length < BlockFiles.maxFileSize then some nFile
    else appendBlockFile d nRounds (nFile + 1)

/-- `CBlock::WriteToDisk`, with `nFileRet` and `nBlockPosRet`. -/
def writeToDisk (P : Params) (d : BlockFileBytes) (block : CBlock) : Option (BlockFileBytes × Nat × Nat) :=
  (d.appendBlockFile d.files.keys.length d.nCurrentBlockFile).map (fun nFile =>
    let nSize := block.getSerializeSizeU32 SER_DISK
    let header := d.contents nFile ++ (getMessageStart P ++ toLeBytes 4 nSize)
    ({ nCurrentBlockFile := nFile, files := d.files.insert nFile (header ++ block.serialize SER_DISK) },
      nFile, header.length % 2 ^ 32))

/-- `CTransaction::ReadFromDisk`: the block position is not used, and neither is what stands behind the
transaction. -/
def readFromDisk (d : BlockFileBytes) (pos : CDiskTxPos) : Option CTransaction :=
  if pos.nFile = UINT_MAX then none
  else
    match d.files.lookup pos.nFile with
    | none => none
    | some file => ((CTransaction.codec.dec (file.drop pos.nTxPos)).toOption).map Prod.fst

end BlockFileBytes

/-! ### The positions of `ConnectBlock` -/

namespace CBlock

/-- `CBlock()`. -/
def null : CBlock where
  hashPrevBlock := 0
  hashMerkleRoot := 0
  nTime := 0
  nBits := 0
  nNonce := 0
  vtx := []
  vchBlockSig := []

/-- The first `nTxPos`: from the size of an empty block, with the two sizes in it taken out. -/
def firstTxPos (nBlockPos : Nat) (block : CBlock) : Nat :=
  addU32 (subU32 (addU32 nBlockPos (null.getSerializeSizeU32 SER_DISK))
    (2 * getSizeOfCompactSize 0)) (getSizeOfCompactSize block.vtx.length)

/-- `nTxPos` at the start of each round of the loop. -/
def txPositions : Nat → List CTransaction → List Nat
  | _, [] => []
  | nTxPos, tx :: vtx => nTxPos :: txPositions (addU32 nTxPos tx.getSerializeSizeU32) vtx

end CBlock

end Peershares
