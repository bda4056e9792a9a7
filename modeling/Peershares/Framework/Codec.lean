import Mathlib.Algebra.Order.Ring.Int
import Mathlib.Tactic.Common
import Mathlib.Tactic.Linarith
import Mathlib.Tactic.Ring

/-!
# Codes that can be read from the front of a stream

A `Codec` writes values as bytes such that a reader knows where a value ends: what stands behind the
value is left in the stream. So a value and the rest can be told from their bytes together, and codes
can be put one behind the other.

* `Codec.append_inj` — the bytes determine the value and the rest
* `Codec.uint`, `Codec.int` — numbers of a fixed width, lowest byte first
* `Codec.pair`, `Codec.map`, `Codec.optional`, `Codec.counted` — combinations
* `Codec.foldMany` — a loop that reads values and takes each into a state
-/

namespace Framework

/-! ### Numbers as bytes -/

/-- The lowest `w` bytes of a number, the lowest first. -/
def toLeBytes : ℕ → ℕ → List UInt8
  | 0, _ => []
  | w + 1, n => UInt8.ofNat n :: toLeBytes w (n / 256)

/-- The number with these bytes, the lowest first. -/
def ofLeBytes : List UInt8 → ℕ
  | [] => 0
  | b :: bs => b.toNat + 256 * ofLeBytes bs

/-- As many bytes as asked for. -/
theorem length_toLeBytes (w n : ℕ) : (toLeBytes w n).length = w := by
  induction w generalizing n with
  | zero => rfl
  | succ w ih => rw [toLeBytes, List.length_cons, ih]

/-- Zero has zeros. -/
theorem toLeBytes_zero (w : ℕ) : toLeBytes w 0 = List.replicate w 0 := by
  induction w with
  | zero => rfl
  | succ w ih =>
    rw [toLeBytes, Nat.zero_div, ih]
    rfl

/-- A number that fits is read back. -/
theorem ofLeBytes_toLeBytes {w n : ℕ} (h : n < 256 ^ w) : ofLeBytes (toLeBytes w n) = n := by
  induction w generalizing n with
  | zero => exact (Nat.lt_one_iff.mp h).symm
  | succ w ih =>
    have hdiv : n / 256 < 256 ^ w := Nat.div_lt_of_lt_mul (by rwa [pow_succ, Nat.mul_comm] at h)
    have hlow : (UInt8.ofNat n).toNat = n % 256 := UInt8.toNat_ofNat'
    rw [toLeBytes, ofLeBytes, ih hdiv, hlow]
    exact Nat.mod_add_div n 256

/-! ### Codes -/

/-- A code for the values that fit. -/
structure Codec (α : Type) where
  enc : α → List UInt8
  /-- Read one value; the rest of the stream is left. -/
  dec : List UInt8 → Except String (α × List UInt8)
  Fits : α → Prop
  dec_enc : ∀ {a : α} (rest : List UInt8), Fits a → dec (enc a ++ rest) = .ok (a, rest)

namespace Codec

variable {α β : Type}

/-- A value and what stands behind it can be told from the bytes. -/
theorem append_inj (c : Codec α) {a b : α} {r r' : List UInt8} (ha : c.Fits a) (hb : c.Fits b)
    (h : c.enc a ++ r = c.enc b ++ r') : a = b ∧ r = r' := by
  have hdec := c.dec_enc r ha
  rw [h, c.dec_enc r' hb] at hdec
  cases hdec
  exact ⟨rfl, rfl⟩

/-- The first `n` bytes; `eod` is the failure when there are less. -/
def readBytes (eod : String) (n : ℕ) (s : List UInt8) : Except String (List UInt8 × List UInt8) :=
  if n ≤ s.length then .ok (s.take n, s.drop n) else .error eod

/-- Bytes that are there are read. -/
theorem readBytes_append {v : List UInt8} {n : ℕ} (h : v.length = n) (eod : String)
    (rest : List UInt8) : readBytes eod n (v ++ rest) = .ok (v, rest) := by
  subst h
  simp [readBytes]

/-- An unsigned number with `w` bytes. -/
def uint (eod : String) (w : ℕ) : Codec ℕ where
  enc n := toLeBytes w n
  dec s := do
    let (v, s) ← readBytes eod w s
    pure (ofLeBytes v, s)
  Fits n := n < 256 ^ w
  dec_enc := by
    intro n rest h
    rw [readBytes_append (length_toLeBytes w n)]
    exact congrArg (fun m => Except.ok (m, rest)) (ofLeBytes_toLeBytes h)

/-- Two values, one behind the other. -/
def pair (c : Codec α) (d : Codec β) : Codec (α × β) where
  enc p := c.enc p.1 ++ d.enc p.2
  dec s := do
    let (a, s) ← c.dec s
    let (b, s) ← d.dec s
    pure ((a, b), s)
  Fits p := c.Fits p.1 ∧ d.Fits p.2
  dec_enc := by
    rintro ⟨a, b⟩ rest ⟨ha, hb⟩
    rw [List.append_assoc, c.dec_enc _ ha]
    show (do let (b, s) ← d.dec (d.enc b ++ rest); pure ((a, b), s)) = _
    rw [d.dec_enc _ hb]
    rfl

/-- The same bytes, for other values. -/
def map (c : Codec α) (f : α → β) (g : β → α) (fits : β → Prop) (hfits : ∀ b, fits b → c.Fits (g b))
    (hfg : ∀ b, fits b → f (g b) = b) : Codec β where
  enc b := c.enc (g b)
  dec s := do
    let (a, s) ← c.dec s
    pure (f a, s)
  Fits := fits
  dec_enc := by
    intro b rest hb
    rw [c.dec_enc _ (hfits b hb)]
    exact congrArg (fun b => Except.ok (b, rest)) (hfg b hb)

/-- A signed number comes back from its residue. -/
theorem bmod_emod_of_fits {w : ℕ} {i : ℤ} (h : -(2 ^ (8 * w) : ℤ) ≤ 2 * i ∧ 2 * i < 2 ^ (8 * w)) :
    (((i % 2 ^ (8 * w)).toNat : ℤ)).bmod (2 ^ (8 * w)) = i := by
  have hpos : (0 : ℤ) < 2 ^ (8 * w) := by positivity
  rw [Int.toNat_of_nonneg (Int.emod_nonneg _ hpos.ne')]
  have hcast : (2 : ℤ) ^ (8 * w) = ((2 ^ (8 * w) : ℕ) : ℤ) := by push_cast; rfl
  rw [hcast, Int.emod_bmod]
  rw [hcast] at h
  exact Int.bmod_eq_of_le_mul_two (by omega) (by omega)

/-- A signed number with `w` bytes. -/
def int (eod : String) (w : ℕ) : Codec ℤ :=
  (uint eod w).map (fun n => (n : ℤ).bmod (2 ^ (8 * w))) (fun i => (i % 2 ^ (8 * w)).toNat)
    (fun i => -(2 ^ (8 * w) : ℤ) ≤ 2 * i ∧ 2 * i < 2 ^ (8 * w))
    (by
      intro i _
      have hpos : (0 : ℤ) < 2 ^ (8 * w) := by positivity
      have hlt := Int.emod_lt_of_pos i hpos
      show (i % 2 ^ (8 * w)).toNat < 256 ^ w
      have h256 : (256 : ℕ) ^ w = 2 ^ (8 * w) := by rw [pow_mul]; rfl
      rw [h256, Int.toNat_lt (Int.emod_nonneg _ hpos.ne')]
      exact_mod_cast hlt)
    (fun _ h => bmod_emod_of_fits h)

/-- Read a number of values. -/
def decMany (c : Codec α) : ℕ → List UInt8 → Except String (List α × List UInt8)
  | 0, s => .ok ([], s)
  | n + 1, s => do
    let (a, s) ← c.dec s
    let (as, s) ← c.decMany n s
    pure (a :: as, s)

/-- A row of values is read back. -/
theorem decMany_enc (c : Codec α) {l : List α} (h : ∀ a ∈ l, c.Fits a) (rest : List UInt8) :
    c.decMany l.length (l.flatMap c.enc ++ rest) = .ok (l, rest) := by
  induction l with
  | nil => rfl
  | cons a l ih =>
    rw [List.length_cons, decMany, List.flatMap_cons, List.append_assoc, c.dec_enc _ (h a List.mem_cons_self)]
    show (do let (as, s) ← c.decMany l.length (l.flatMap c.enc ++ rest); pure (a :: as, s)) = _
    rw [ih fun b hb => h b (List.mem_cons_of_mem _ hb)]
    rfl

/-- A value that is written only under a condition. -/
def optional (c : Codec α) (written : Bool) (default : α) : Codec α where
  enc a := if written then c.enc a else []
  dec s := if written then c.dec s else .ok (default, s)
  Fits a := if written then c.Fits a else a = default
  dec_enc := by
    intro a rest h
    cases written with
    | true => exact c.dec_enc rest h
    | false => exact congrArg (fun b => Except.ok (b, rest)) h.symm

/-- Read a number of values, and take each into a state. -/
def foldMany {σ : Type} (c : Codec α) (step : σ → α → σ) : ℕ → σ → List UInt8 → Except String (σ × List UInt8)
  | 0, st, s => .ok (st, s)
  | n + 1, st, s => do
    let (a, s) ← c.dec s
    c.foldMany step n (step st a) s

/-- And so when it is folded while it is read. -/
theorem foldMany_enc {σ : Type} (c : Codec α) (step : σ → α → σ) {l : List α} (h : ∀ a ∈ l, c.Fits a) (st : σ)
    (rest : List UInt8) :
    c.foldMany step l.length st (l.flatMap c.enc ++ rest) = .ok (l.foldl step st, rest) := by
  induction l generalizing st with
  | nil => rfl
  | cons a l ih =>
    rw [List.length_cons, foldMany, List.flatMap_cons, List.append_assoc, c.dec_enc _ (h a List.mem_cons_self)]
    exact ih (fun b hb => h b (List.mem_cons_of_mem _ hb)) (step st a)

/-- A list, with the number of its elements in front. -/
def counted (size : Codec ℕ) (c : Codec α) : Codec (List α) where
  enc l := size.enc l.length ++ l.flatMap c.enc
  dec s := do
    let (n, s) ← size.dec s
    c.decMany n s
  Fits l := size.Fits l.length ∧ ∀ a ∈ l, c.Fits a
  dec_enc := by
    intro l rest h
    rw [List.append_assoc, size.dec_enc _ h.1]
    exact c.decMany_enc h.2 rest

/-- Bytes, with their number in front. -/
def bytes (eod : String) (size : Codec ℕ) : Codec (List UInt8) where
  enc v := size.enc v.length ++ v
  dec s := do
    let (n, s) ← size.dec s
    readBytes eod n s
  Fits v := size.Fits v.length
  dec_enc := by
    intro v rest h
    rw [List.append_assoc, size.dec_enc _ h]
    exact readBytes_append rfl eod rest

end Codec

end Framework
