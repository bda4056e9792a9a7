import Peershares.Model.Serialize

/-!
# Transactions and blocks as bytes

The three code paths of `IMPLEMENT_SERIALIZE` for `CTransaction` and `CBlock`: `Serialize`, `Unserialize` from
a `CDataStream`, and `GetSerializeSize`.

Here the position of the stream and the sizes are `unsigned int`, as in the source: they wrap around. What a
`memcpy` from beyond the end of the buffer would read is left out. The size of a structure in memory, which
bounds the elements a vector is resized for at once, depends on the machine (`Layout`). Fields that are only
kept in memory (`vMerkleTree`, `nDoS`) are left out.
-/

open Framework

namespace Peershares

/-! ### Reading -/

/-- A read from a stream, which throws or leaves the stream behind the value. -/
abbrev StreamReader := StateT CDataStream Result

namespace StreamReader

/-- `CDataStream::read`, with the position as an `unsigned int`. -/
def read (nSize : Nat) : StreamReader (List UInt8) := fun s =>
  let nReadPosNext := (s.nReadPos + nSize) % 2 ^ 32
  if s.vch.length < nReadPosNext then .error (.exception endOfData)
  else if s.vch.length = nReadPosNext then .ok ((s.vch.drop s.nReadPos).take nSize, {})
  else .ok ((s.vch.drop s.nReadPos).take nSize, { s with nReadPos := nReadPosNext })

/-- `READDATA` of an unsigned number of `w` bytes. -/
def uint (w : Nat) : StreamReader Nat := do
  let v ← read w
  pure (ofLeBytes v)

/-- `READDATA` of a signed number of `w` bytes. -/
def int (w : Nat) : StreamReader Int := do
  let n ← uint w
  pure ((n : Int).bmod (2 ^ (8 * w)))

/-- `ReadCompactSize`, before the test of the size. -/
def size : StreamReader Nat := do
  let chSize ← uint 1
  if chSize < 253 then pure chSize
  else if chSize = 253 then uint 2
  else if chSize = 254 then uint 4
  else uint 8

/-- `ReadCompactSize`. -/
def compactSize : StreamReader Nat := do
  let nSizeRet ← size
  if nSizeRet > MAX_SIZE then throw (.exception "ReadCompactSize() : size too large")
  else pure nSizeRet

/-- The loop over the blocks of a vector of bytes, of which `nLeft` are still to be read. -/
def blocks (nLeft : Nat) : StreamReader (List UInt8) :=
  if _h : nLeft = 0 then pure []
  else do
    let v ← read (min nLeft 5000000)
    let rest ← blocks (nLeft - min nLeft 5000000)
    pure (v ++ rest)
termination_by nLeft
decreasing_by omega

/-- `Unserialize` of a `vector<unsigned char>`. -/
def bytes : StreamReader (List UInt8) := do
  let nSize ← compactSize
  blocks nSize

/-- `for (; i < nMid; i++)`, for a number of elements. -/
def elements {α : Type} (unserialize : StreamReader α) : Nat → StreamReader (List α)
  | 0 => pure []
  | n + 1 => do
    let a ← unserialize
    let v ← elements unserialize n
    pure (a :: v)

/-- The loop over the batches of a vector, of which `nLeft` elements are still to be read. -/
def batches {α : Type} (unserialize : StreamReader α) (nBatch : { n : Nat // 0 < n }) (nLeft : Nat) :
    StreamReader (List α) :=
  if _h : nLeft = 0 then pure []
  else do
    let v ← elements unserialize (min nLeft nBatch.1)
    let rest ← batches unserialize nBatch (nLeft - min nLeft nBatch.1)
    pure (v ++ rest)
termination_by nLeft
decreasing_by
  have := nBatch.2
  omega

/-- `Unserialize` of a vector of structures. -/
def vector {α : Type} (unserialize : StreamReader α) (nBatch : { n : Nat // 0 < n }) : StreamReader (List α) := do
  let nSize ← compactSize
  batches unserialize nBatch nSize

end StreamReader

/-- `5000000 / sizeof(T)` for the structures that vectors are made of. -/
structure Layout where
  nTxIn : { n : Nat // 0 < n }
  nTxOut : { n : Nat // 0 < n }
  nTransaction : { n : Nat // 0 < n }

/-! ### Sizes -/

/-- `+=` on an `unsigned int`. -/
def addU32 (a b : Nat) : Nat := (a + b) % 2 ^ 32

/-- `GetSerializeSize` of a vector of bytes. -/
def sizeOfBytesU32 (v : List UInt8) : Nat := (getSizeOfCompactSize v.length + v.length) % 2 ^ 32

/-- `GetSerializeSize` of a vector of structures. -/
def sizeOfVectorU32 {α : Type} (getSerializeSize : α → Nat) (v : List α) : Nat :=
  v.foldl (fun nSize a => addU32 nSize (getSerializeSize a)) (getSizeOfCompactSize v.length)

/-! ### Outpoints, inputs and outputs -/

namespace COutPoint

/-- `FLATDATA(*this)`: the hash and the number, as they are in memory. -/
def serialize (o : COutPoint) : List UInt8 := toLeBytes 32 o.hash ++ toLeBytes 4 o.n

def unserialize : StreamReader COutPoint := do
  let v ← StreamReader.read 36
  pure ⟨ofLeBytes (v.take 32), ofLeBytes (v.drop 32)⟩

end COutPoint

namespace CTxIn

def serialize (txin : CTxIn) : List UInt8 :=
  txin.prevout.serialize ++ (string.enc txin.scriptSig ++ toLeBytes 4 txin.nSequence)

def unserialize : StreamReader CTxIn := do
  let prevout ← COutPoint.unserialize
  let scriptSig ← StreamReader.bytes
  let nSequence ← StreamReader.uint 4
  pure ⟨prevout, scriptSig, nSequence⟩

def getSerializeSizeU32 (txin : CTxIn) : Nat := addU32 (addU32 (addU32 0 36) (sizeOfBytesU32 txin.scriptSig)) 4

end CTxIn

namespace CTxOut

def serialize (txout : CTxOut) : List UInt8 := int64.enc txout.nValue ++ string.enc txout.scriptPubKey

def unserialize : StreamReader CTxOut := do
  let nValue ← StreamReader.int 8
  let scriptPubKey ← StreamReader.bytes
  pure ⟨nValue, scriptPubKey⟩

def getSerializeSizeU32 (txout : CTxOut) : Nat := addU32 (addU32 0 8) (sizeOfBytesU32 txout.scriptPubKey)

end CTxOut

/-- `Serialize` of a vector of structures. -/
def serializeVector {α : Type} (serialize : α → List UInt8) (v : List α) : List UInt8 :=
  writeCompactSize v.length ++ v.flatMap serialize

/-! ### Transactions and blocks -/

namespace CTransaction

def serialize (tx : CTransaction) : List UInt8 :=
  int32.enc tx.nVersion ++ (toLeBytes 4 tx.nTime ++ (serializeVector CTxIn.serialize tx.vin ++
    (serializeVector CTxOut.serialize tx.vout ++ toLeBytes 4 tx.nLockTime)))

def unserialize (L : Layout) : StreamReader CTransaction := do
  let nVersion ← StreamReader.int 4
  let nTime ← StreamReader.uint 4
  let vin ← StreamReader.vector CTxIn.unserialize L.nTxIn
  let vout ← StreamReader.vector CTxOut.unserialize L.nTxOut
  let nLockTime ← StreamReader.uint 4
  pure ⟨nVersion, nTime, vin, vout, nLockTime⟩

def getSerializeSizeU32 (tx : CTransaction) : Nat :=
  addU32 (addU32 (addU32 (addU32 (addU32 0 4) 4) (sizeOfVectorU32 CTxIn.getSerializeSizeU32 tx.vin))
    (sizeOfVectorU32 CTxOut.getSerializeSizeU32 tx.vout)) 4

end CTransaction

def SER_DISK : Nat := 1 <<< 1
def SER_GETHASH : Nat := 1 <<< 2
def SER_BLOCKHEADERONLY : Nat := 1 <<< 17

namespace CBlock

/-- The transactions and the signature belong to the serialized block. -/
def isFull (nType : Nat) : Bool := nType &&& (SER_GETHASH ||| SER_BLOCKHEADERONLY) = 0

def serialize (nType : Nat) (block : CBlock) : List UInt8 :=
  int32.enc block.nVersion ++ (toLeBytes 32 block.hashPrevBlock ++ (toLeBytes 32 block.hashMerkleRoot ++
    (toLeBytes 4 block.nTime ++ (toLeBytes 4 block.nBits ++ (toLeBytes 4 block.nNonce ++
      if isFull nType then serializeVector CTransaction.serialize block.vtx ++ string.enc block.vchBlockSig
      else [])))))

def unserialize (L : Layout) (nType : Nat) : StreamReader CBlock := do
  let nVersion ← StreamReader.int 4
  let hashPrevBlock ← StreamReader.uint 32
  let hashMerkleRoot ← StreamReader.uint 32
  let nTime ← StreamReader.uint 4
  let nBits ← StreamReader.uint 4
  let nNonce ← StreamReader.uint 4
  if isFull nType then do
    let vtx ← StreamReader.vector (CTransaction.unserialize L) L.nTransaction
    let vchBlockSig ← StreamReader.bytes
    pure ⟨nVersion, hashPrevBlock, hashMerkleRoot, nTime, nBits, nNonce, vtx, vchBlockSig⟩
  else pure ⟨nVersion, hashPrevBlock, hashMerkleRoot, nTime, nBits, nNonce, [], []⟩

def getSerializeSizeU32 (nType : Nat) (block : CBlock) : Nat :=
  let nSerSize := addU32 (addU32 (addU32 (addU32 (addU32 (addU32 0 4) 32) 32) 4) 4) 4
  if isFull nType then
    addU32 (addU32 nSerSize (sizeOfVectorU32 CTransaction.getSerializeSizeU32 block.vtx))
      (sizeOfBytesU32 block.vchBlockSig)
  else nSerSize

end CBlock

/-! ### The codes

What `Serialize` writes, as codes in the sense of `Framework.Codec`, with the values that `Unserialize` reads back. -/

theorem int32_fits {i : ℤ} : int32.Fits i ↔ -2 ^ 31 ≤ i ∧ i < 2 ^ 31 := by
  show (-(2 ^ (8 * 4) : ℤ) ≤ 2 * i ∧ 2 * i < 2 ^ (8 * 4)) ↔ _
  norm_num
  omega

namespace COutPoint

/-- The numbers are in the range of their types. -/
def Fits (o : COutPoint) : Prop := o.hash < 2 ^ 256 ∧ o.n < 2 ^ 32

def codec : Codec COutPoint :=
  ((Codec.uint endOfData 32).pair (Codec.uint endOfData 4)).map (fun p => ⟨p.1, p.2⟩) (fun o => (o.hash, o.n))
    Fits (fun _ h => ⟨by simpa [Codec.uint] using h.1, by simpa [Codec.uint] using h.2⟩) (fun _ _ => rfl)

end COutPoint

namespace CTxIn

def Fits (txin : CTxIn) : Prop :=
  txin.prevout.Fits ∧ txin.scriptSig.length ≤ MAX_SIZE ∧ txin.nSequence < 2 ^ 32

def codec : Codec CTxIn :=
  (COutPoint.codec.pair (string.pair (Codec.uint endOfData 4))).map (fun p => ⟨p.1, p.2.1, p.2.2⟩)
    (fun txin => (txin.prevout, txin.scriptSig, txin.nSequence)) Fits
    (fun _ h => ⟨h.1, h.2.1, by simpa [Codec.uint] using h.2.2⟩) (fun _ _ => rfl)

end CTxIn

namespace CTxOut

def Fits (txout : CTxOut) : Prop :=
  (-2 ^ 63 ≤ txout.nValue ∧ txout.nValue < 2 ^ 63) ∧ txout.scriptPubKey.length ≤ MAX_SIZE

def codec : Codec CTxOut :=
  (int64.pair string).map (fun p => ⟨p.1, p.2⟩) (fun txout => (txout.nValue, txout.scriptPubKey)) Fits
    (fun _ h => ⟨int64_fits.mpr h.1, h.2⟩) (fun _ _ => rfl)

end CTxOut

namespace CTransaction

/-- The numbers are in the range of their types, and the vectors are within `MAX_SIZE`. -/
structure Fits (tx : CTransaction) : Prop where
  nVersion : -2 ^ 31 ≤ tx.nVersion ∧ tx.nVersion < 2 ^ 31
  nTime : tx.nTime < 2 ^ 32
  vin : tx.vin.length ≤ MAX_SIZE ∧ ∀ txin ∈ tx.vin, txin.Fits
  vout : tx.vout.length ≤ MAX_SIZE ∧ ∀ txout ∈ tx.vout, txout.Fits
  nLockTime : tx.nLockTime < 2 ^ 32

def codec : Codec CTransaction :=
  (int32.pair ((Codec.uint endOfData 4).pair ((Codec.counted compactSize CTxIn.codec).pair
    ((Codec.counted compactSize CTxOut.codec).pair (Codec.uint endOfData 4))))).map
    (fun p => ⟨p.1, p.2.1, p.2.2.1, p.2.2.2.1, p.2.2.2.2⟩)
    (fun tx => (tx.nVersion, tx.nTime, tx.vin, tx.vout, tx.nLockTime)) Fits
    (fun _ h => ⟨int32_fits.mpr h.nVersion, by simpa [Codec.uint] using h.nTime, h.vin, h.vout,
      by simpa [Codec.uint] using h.nLockTime⟩)
    (fun _ _ => rfl)

theorem codec_enc (tx : CTransaction) : codec.enc tx = tx.serialize := rfl

end CTransaction

namespace CBlock

/-- The numbers are in the range of their types, and the vectors are within `MAX_SIZE`. -/
structure Fits (block : CBlock) : Prop where
  nVersion : -2 ^ 31 ≤ block.nVersion ∧ block.nVersion < 2 ^ 31
  hashPrevBlock : block.hashPrevBlock < 2 ^ 256
  hashMerkleRoot : block.hashMerkleRoot < 2 ^ 256
  nTime : block.nTime < 2 ^ 32
  nBits : block.nBits < 2 ^ 32
  nNonce : block.nNonce < 2 ^ 32
  vtx : block.vtx.length ≤ MAX_SIZE ∧ ∀ tx ∈ block.vtx, tx.Fits
  vchBlockSig : block.vchBlockSig.length ≤ MAX_SIZE

/-- The code of a block with its transactions and signature. -/
def codec : Codec CBlock :=
  (int32.pair ((Codec.uint endOfData 32).pair ((Codec.uint endOfData 32).pair ((Codec.uint endOfData 4).pair
    ((Codec.uint endOfData 4).pair ((Codec.uint endOfData 4).pair
      ((Codec.counted compactSize CTransaction.codec).pair string))))))).map
    (fun p => ⟨p.1, p.2.1, p.2.2.1, p.2.2.2.1, p.2.2.2.2.1, p.2.2.2.2.2.1, p.2.2.2.2.2.2.1, p.2.2.2.2.2.2.2⟩)
    (fun block => (block.nVersion, block.hashPrevBlock, block.hashMerkleRoot, block.nTime, block.nBits,
      block.nNonce, block.vtx, block.vchBlockSig)) Fits
    (fun _ h => ⟨int32_fits.mpr h.nVersion, by simpa [Codec.uint] using h.hashPrevBlock,
      by simpa [Codec.uint] using h.hashMerkleRoot, by simpa [Codec.uint] using h.nTime,
      by simpa [Codec.uint] using h.nBits, by simpa [Codec.uint] using h.nNonce, h.vtx, h.vchBlockSig⟩)
    (fun _ _ => rfl)

theorem codec_enc {nType : ℕ} (hfull : isFull nType = true) (block : CBlock) :
    codec.enc block = block.serialize nType := by
  unfold serialize
  rw [if_pos hfull]
  rfl

end CBlock

end Peershares
