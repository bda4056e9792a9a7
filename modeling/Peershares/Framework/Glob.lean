import Mathlib.Computability.Language
import Mathlib.Tactic.Common

/-!
# Masks with wildcards

The strings that a mask stands for: the concatenation of what its pieces stand for.

* `globLanguage` — the language of a mask
* `mem_globLanguage_char`, `mem_globLanguage_one`, `mem_globLanguage_many` — a string and a mask by their first pieces
-/

namespace Framework

/-- A piece of a mask. -/
inductive GlobPiece (α : Type)
  | char (a : α)
  | one
  | many

variable {α : Type} {a : α} {s : List α} {mask : List (GlobPiece α)}

/-- The strings of a piece: a character stands for itself, and a wildcard for any character or for any string. -/
def GlobPiece.language : GlobPiece α → Language α
  | .char a => {[a]}
  | .one => {s | ∃ a, s = [a]}
  | .many => Set.univ

/-- The strings of a mask. -/
def globLanguage (mask : List (GlobPiece α)) : Language α := (mask.map GlobPiece.language).prod

theorem mem_globLanguage_nil : s ∈ globLanguage ([] : List (GlobPiece α)) ↔ s = [] := Language.mem_one s

theorem mem_globLanguage_cons {p : GlobPiece α} :
    s ∈ globLanguage (p :: mask) ↔ ∃ front ∈ p.language, ∃ back ∈ globLanguage mask, front ++ back = s := by
  rw [globLanguage, List.map_cons, List.prod_cons, Language.mem_mul]
  rfl

theorem mem_globLanguage_char :
    s ∈ globLanguage (.char a :: mask) ↔ ∃ back ∈ globLanguage mask, s = a :: back := by
  rw [mem_globLanguage_cons]
  constructor
  · rintro ⟨front, rfl, back, hback, rfl⟩
    exact ⟨back, hback, rfl⟩
  · rintro ⟨back, hback, rfl⟩
    exact ⟨[a], rfl, back, hback, rfl⟩

theorem mem_globLanguage_one :
    s ∈ globLanguage (.one :: mask) ↔ ∃ a, ∃ back ∈ globLanguage mask, s = a :: back := by
  rw [mem_globLanguage_cons]
  constructor
  · rintro ⟨front, ⟨a, rfl⟩, back, hback, rfl⟩
    exact ⟨a, back, hback, rfl⟩
  · rintro ⟨a, back, hback, rfl⟩
    exact ⟨[a], ⟨a, rfl⟩, back, hback, rfl⟩

/-- The wildcard for any string stands for nothing, or it takes a character and stays. -/
theorem mem_globLanguage_many :
    s ∈ globLanguage (.many :: mask) ↔
      s ∈ globLanguage mask ∨ ∃ a, ∃ back ∈ globLanguage (.many :: mask), s = a :: back := by
  constructor
  · rw [mem_globLanguage_cons]
    rintro ⟨front, -, back, hback, rfl⟩
    cases front with
    | nil => exact Or.inl hback
    | cons a front =>
      exact Or.inr ⟨a, front ++ back, mem_globLanguage_cons.mpr ⟨front, Set.mem_univ _, back, hback, rfl⟩, rfl⟩
  · rintro (hs | ⟨a, back, hback, rfl⟩)
    · exact mem_globLanguage_cons.mpr ⟨[], Set.mem_univ _, s, hs, rfl⟩
    · obtain ⟨front, -, rest, hrest, rfl⟩ := mem_globLanguage_cons.mp hback
      exact mem_globLanguage_cons.mpr ⟨a :: front, Set.mem_univ _, rest, hrest, rfl⟩

end Framework
