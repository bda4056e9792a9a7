import Mathlib.Data.List.Lex
import Mathlib.Data.List.Perm.Basic
import Mathlib.Data.List.Sort
import Mathlib.Tactic.Common

/-!
# Maps with an order on the keys

A finite map as the list of its entries by increasing key: what a database with a cursor is. A scan
starts at the first entry that is not below a given key and goes on as long as the keys have a property.

* `OrderedMap.put`, `OrderedMap.erase` — the writes
* `OrderedMap.seek` — the entries from a key on
* `OrderedMap.takeWhile_seek` — a scan finds the entries with the property, when the keys with the
  property are an interval and the scan starts at the lower end of it
* `prefix_between` — the lists that start with a given list are such an interval
-/

namespace Framework

/-! ### Entries by increasing key -/

section Entries

variable {K V : Type} [LinearOrder K]

/-- The keys increase. -/
def Increasing (l : List (K × V)) : Prop := l.Pairwise fun p q => p.1 < q.1

/-- Write `v` at `k`, over what is there. -/
def putEntry (k : K) (v : V) : List (K × V) → List (K × V)
  | [] => [(k, v)]
  | p :: l => if k < p.1 then (k, v) :: p :: l else if k = p.1 then (k, v) :: l else p :: putEntry k v l

/-- An entry after an insertion is new or old. -/
theorem mem_putEntry_of_mem {k : K} {v : V} {l : List (K × V)} {q : K × V} (h : q ∈ putEntry k v l) :
    q = (k, v) ∨ q ∈ l := by
  induction l with
  | nil => exact .inl (List.mem_singleton.mp h)
  | cons p l ih =>
    rw [putEntry] at h
    split_ifs at h
    · exact List.mem_cons.mp h
    · rcases List.mem_cons.mp h with rfl | h
      · exact .inl rfl
      · exact .inr (List.mem_cons_of_mem _ h)
    · rcases List.mem_cons.mp h with rfl | h
      · exact .inr List.mem_cons_self
      · exact (ih h).imp id (List.mem_cons_of_mem _)

/-- An insertion keeps the order of the keys. -/
theorem Increasing.putEntry {l : List (K × V)} (hl : Increasing l) (k : K) (v : V) :
    Increasing (putEntry k v l) := by
  induction l with
  | nil => exact List.pairwise_singleton _ _
  | cons p l ih =>
    obtain ⟨hp, hl'⟩ := List.pairwise_cons.mp hl
    rw [Framework.putEntry]
    split_ifs with h₁ h₂
    · refine List.pairwise_cons.mpr ⟨fun q hq => ?_, hl⟩
      rcases List.mem_cons.mp hq with rfl | hq
      · exact h₁
      · exact h₁.trans (hp q hq)
    · exact List.pairwise_cons.mpr ⟨fun q hq => h₂ ▸ hp q hq, hl'⟩
    · refine List.pairwise_cons.mpr ⟨fun q hq => ?_, ih hl'⟩
      rcases mem_putEntry_of_mem hq with rfl | hq
      · exact lt_of_le_of_ne (not_lt.mp h₁) (Ne.symm h₂)
      · exact hp q hq

/-- At a new key a write adds one entry. -/
theorem putEntry_perm {k : K} {l : List (K × V)} (h : ∀ p ∈ l, p.1 ≠ k) (v : V) :
    (putEntry k v l).Perm ((k, v) :: l) := by
  induction l with
  | nil => exact List.Perm.refl _
  | cons p l ih =>
    rw [putEntry]
    split_ifs with h₁ h₂
    · exact List.Perm.refl _
    · exact absurd h₂.symm (h p List.mem_cons_self)
    · exact ((ih fun q hq => h q (List.mem_cons_of_mem _ hq)).cons p).trans (List.Perm.swap _ _ _)

/-- A write at a key without the property is not seen by those who look at the entries with it. -/
theorem filter_putEntry {Q : K → Bool} {k : K} (hk : Q k = false) (v : V) (l : List (K × V)) :
    (putEntry k v l).filter (fun p => Q p.1) = l.filter fun p => Q p.1 := by
  induction l with
  | nil => simp [putEntry, hk]
  | cons p l ih =>
    rw [putEntry]
    split_ifs with h₁ h₂
    · rw [List.filter_cons_of_neg (by simp [hk])]
    · rw [List.filter_cons_of_neg (by simp [hk]), List.filter_cons_of_neg (by simp [← h₂, hk])]
    · rw [List.filter_cons, List.filter_cons, ih]

/-- Each entry with the property comes in the scan, and the scan ends behind the last of them. -/
theorem takeWhile_dropWhile {Q : K → Bool} {k₀ : K} {l : List (K × V)} (hl : Increasing l)
    (hstart : Q k₀ = true) (hmin : ∀ p ∈ l, Q p.1 = true → k₀ ≤ p.1)
    (hbetween : ∀ a b c, Q a = true → Q c = true → a ≤ b → b ≤ c → Q b = true) :
    (l.dropWhile fun p => p.1 < k₀).takeWhile (fun p => Q p.1) = l.filter fun p => Q p.1 := by
  induction l with
  | nil => rfl
  | cons p l ih =>
    obtain ⟨hp, hl'⟩ := List.pairwise_cons.mp hl
    have ih := ih hl' fun q hq => hmin q (List.mem_cons_of_mem _ hq)
    by_cases hlow : p.1 < k₀
    · have hQ : ¬ Q p.1 = true := fun h => absurd (hmin p List.mem_cons_self h) (not_le.mpr hlow)
      rw [List.dropWhile_cons_of_pos (by simpa using hlow), ih, List.filter_cons, if_neg hQ]
    · -- from here on nothing is dropped
      have hrest : (l.dropWhile fun q => q.1 < k₀) = l := by
        cases l with
        | nil => rfl
        | cons q l =>
          have hq : ¬ q.1 < k₀ := fun h => hlow ((hp q List.mem_cons_self).trans h)
          exact List.dropWhile_cons_of_neg (by simpa using hq)
      rw [List.dropWhile_cons_of_neg (by simpa using hlow)]
      rw [hrest] at ih
      by_cases hQ : Q p.1 = true
      · rw [List.takeWhile_cons, if_pos hQ, ih, List.filter_cons, if_pos hQ]
      · rw [List.takeWhile_cons, if_neg hQ, List.filter_cons, if_neg hQ]
        -- the keys with the property are an interval, and this key is in it if a later one is
        symm
        rw [List.filter_eq_nil_iff]
        intro q hq hQq
        exact hQ (hbetween k₀ p.1 q.1 hstart hQq (not_lt.mp hlow) (hp q hq).le)

end Entries

/-! ### Maps -/

/-- A finite map with its entries by increasing key. -/
structure OrderedMap (K V : Type) [LinearOrder K] where
  entries : List (K × V)
  increasing : Increasing entries

namespace OrderedMap

variable {K V : Type} [LinearOrder K]

/-- No entries. -/
def empty : OrderedMap K V := ⟨[], List.Pairwise.nil⟩

/-- The keys. -/
def keys (m : OrderedMap K V) : List K := m.entries.map Prod.fst

/-- Write, over what is there. -/
def put (m : OrderedMap K V) (k : K) (v : V) : OrderedMap K V :=
  ⟨putEntry k v m.entries, m.increasing.putEntry k v⟩

/-- Erase, if it is there. -/
def erase (m : OrderedMap K V) (k : K) : OrderedMap K V :=
  ⟨m.entries.filter fun p => p.1 ≠ k, m.increasing.filter _⟩

/-- The entries from the key on. -/
def seek (m : OrderedMap K V) (k : K) : List (K × V) := m.entries.dropWhile fun p => p.1 < k

variable {m : OrderedMap K V} {Q : K → Bool} {k : K}

/-- The same for the map. -/
theorem mem_entries_put {v : V} {q : K × V} (h : q ∈ (m.put k v).entries) :
    q = (k, v) ∨ q ∈ m.entries := mem_putEntry_of_mem h

/-- A new key adds its entry. -/
theorem entries_put_perm (h : k ∉ m.keys) (v : V) :
    (m.put k v).entries.Perm ((k, v) :: m.entries) := by
  refine putEntry_perm (fun p hp hk => h ?_) v
  rw [← hk]
  exact List.mem_map_of_mem hp

/-- A key outside a range leaves the range alone. -/
theorem filter_put (hk : Q k = false) (v : V) :
    (m.put k v).entries.filter (fun p => Q p.1) = m.entries.filter fun p => Q p.1 :=
  filter_putEntry hk v m.entries

/-- And so does erasing it. -/
theorem filter_erase (hk : Q k = false) :
    (m.erase k).entries.filter (fun p => Q p.1) = m.entries.filter fun p => Q p.1 := by
  unfold erase
  rw [List.filter_filter]
  refine List.filter_congr fun p _ => ?_
  by_cases hp : p.1 = k
  · simp [hp, hk]
  · simp [hp]

/-- Erasing removes the entry of the key only. -/
theorem mem_entries_erase_iff {q : K × V} : q ∈ (m.erase k).entries ↔ q ∈ m.entries ∧ q.1 ≠ k := by
  unfold erase
  rw [List.mem_filter, decide_eq_true_eq]

/-- So what is left was there. -/
theorem mem_entries_erase {q : K × V} (h : q ∈ (m.erase k).entries) : q ∈ m.entries :=
  (mem_entries_erase_iff.mp h).1

/-! ### Lookups -/

/-- The value at a key. -/
def lookup (m : OrderedMap K V) (k : K) : Option V := (m.entries.find? fun p => p.1 = k).map Prod.snd

/-- The empty map. -/
theorem lookup_empty (k : K) : (empty : OrderedMap K V).lookup k = none := rfl

/-- Looking up after an insertion. -/
theorem find?_putEntry (k k' : K) (v : V) (l : List (K × V)) :
    (putEntry k v l).find? (fun p => p.1 = k') =
      if k' = k then some (k, v) else l.find? fun p => p.1 = k' := by
  induction l with
  | nil =>
    by_cases h : k' = k
    · simp [putEntry, h]
    · simp [putEntry, h, Ne.symm h]
  | cons p l ih =>
    rw [putEntry]
    -- the key that is put replaces its entry or comes before a higher one
    by_cases h : k' = k
    · subst h
      rw [if_pos rfl]
      split_ifs with h₁ h₂
      · simp
      · simp
      · rw [List.find?_cons_of_neg (by simpa using Ne.symm h₂), ih, if_pos rfl]
    · -- another key keeps what it has
      rw [if_neg h]
      split_ifs with h₁ h₂
      · rw [List.find?_cons_of_neg (by simpa using Ne.symm h)]
      · rw [List.find?_cons_of_neg (by simpa using Ne.symm h),
          List.find?_cons_of_neg (by simpa [← h₂] using Ne.symm h)]
      · rw [List.find?_cons, List.find?_cons, ih, if_neg h]

/-- The same for the map. -/
theorem lookup_put (m : OrderedMap K V) (k k' : K) (v : V) :
    (m.put k v).lookup k' = if k' = k then some v else m.lookup k' := by
  unfold lookup put
  rw [find?_putEntry]
  split_ifs <;> rfl

/-- In increasing order each key is found. -/
theorem find?_of_increasing {l : List (K × V)} (hl : Increasing l) {k : K} {v : V} :
    (l.find? fun p => p.1 = k) = some (k, v) ↔ (k, v) ∈ l := by
  constructor
  · exact List.mem_of_find?_eq_some
  · intro hmem
    induction l with
    | nil => exact absurd hmem List.not_mem_nil
    | cons p l ih =>
      obtain ⟨hp, hl'⟩ := List.pairwise_cons.mp hl
      rcases List.mem_cons.mp hmem with rfl | hmem
      · simp
      · have hne : p.1 ≠ k := (hp _ hmem).ne
        rw [List.find?_cons_of_neg (by simpa using hne), ih hl' hmem]

/-- So looking up is membership. -/
theorem lookup_eq_some_iff {v : V} : m.lookup k = some v ↔ (k, v) ∈ m.entries := by
  rw [← find?_of_increasing m.increasing, lookup, Option.map_eq_some_iff]
  constructor
  · rintro ⟨⟨k', v'⟩, hfind, rfl⟩
    have hk : k' = k := by simpa using List.find?_some hfind
    rw [hfind, hk]
  · intro h
    exact ⟨_, h, rfl⟩

/-- A key has one entry. -/
theorem eq_of_mem_entries {p q : K × V} (hp : p ∈ m.entries) (hq : q ∈ m.entries) (h : p.1 = q.1) : p = q := by
  have hp' := lookup_eq_some_iff.mpr hp
  rw [h, lookup_eq_some_iff.mpr hq] at hp'
  exact Prod.ext h (Option.some_inj.mp hp').symm

/-- The keys are what is found. -/
theorem lookup_isSome_iff : (m.lookup k).isSome = true ↔ k ∈ m.keys := by
  rw [Option.isSome_iff_exists, keys, List.mem_map]
  constructor
  · rintro ⟨v, hv⟩
    exact ⟨(k, v), lookup_eq_some_iff.mp hv, rfl⟩
  · rintro ⟨⟨k', v⟩, hmem, rfl⟩
    exact ⟨v, lookup_eq_some_iff.mpr hmem⟩

/-- They stand in order. -/
theorem keys_increasing (m : OrderedMap K V) : m.keys.Pairwise (· < ·) :=
  List.pairwise_map.mpr m.increasing

/-! ### Scans -/

/-- A range that is convex in the order is read from its start on while it lasts. -/
theorem takeWhile_seek (hstart : Q k = true) (hmin : ∀ p ∈ m.entries, Q p.1 = true → k ≤ p.1)
    (hbetween : ∀ a b c, Q a = true → Q c = true → a ≤ b → b ≤ c → Q b = true) :
    (m.seek k).takeWhile (fun p => Q p.1) = m.entries.filter fun p => Q p.1 :=
  takeWhile_dropWhile m.increasing hstart hmin hbetween

end OrderedMap

/-- A list with the images of other values, in some order, is the list of the images in that order. -/
theorem exists_map_eq_of_perm {β γ : Type} {f : β → γ} {l : List γ} {l' : List β}
    (h : l.Perm (l'.map f)) : ∃ l'' : List β, l = l''.map f ∧ l''.Perm l' := by
  have hrel : List.Forall₂ (fun c b => c = f b) (l'.map f) l' :=
    List.forall₂_map_left_iff.mpr (List.forall₂_same.mpr fun _ _ => rfl)
  obtain ⟨l'', hall, hperm⟩ := List.perm_comp_forall₂ h hrel
  have hmap : List.Forall₂ (· = ·) l (l''.map f) := List.forall₂_map_right_iff.mpr hall
  rw [List.forall₂_eq_eq_eq] at hmap
  exact ⟨l'', hmap, hperm⟩

/-! ### Sets of numbers, in order -/

/-! What `Finset.sort` needs of `≤` on the integers. -/

instance isTrans_intLe : IsTrans ℤ fun a b => a ≤ b := ⟨fun _ _ _ => le_trans⟩

instance antisymm_intLe : Std.Antisymm fun a b : ℤ => a ≤ b := ⟨fun _ _ => le_antisymm⟩

instance total_intLe : Std.Total fun a b : ℤ => a ≤ b := ⟨le_total⟩

/-! ### Lists in the order of a dictionary -/

/-- Bytes are compared as unsigned numbers. -/
instance linearOrderUInt8 : LinearOrder UInt8 where
  le_refl := UInt8.le_refl
  le_trans _ _ _ := UInt8.le_trans
  le_antisymm _ _ := UInt8.le_antisymm
  le_total := UInt8.le_total
  lt_iff_le_not_ge a b := by
    rw [UInt8.not_le]
    exact ⟨fun h => ⟨UInt8.le_of_lt h, h⟩, fun h => h.2⟩
  toDecidableLE := inferInstance
  toDecidableEq := inferInstance
  toDecidableLT := inferInstance

section Lexicographic

variable {α : Type} [LinearOrder α]

/-- The order of rows begins with the first element. -/
theorem cons_le_cons_iff_lex {a b : α} {l l' : List α} :
    a :: l ≤ b :: l' ↔ a < b ∨ a = b ∧ l ≤ l' := by
  rw [← not_lt, ← not_lt]
  constructor
  · intro h
    rcases lt_trichotomy a b with hab | rfl | hab
    · exact .inl hab
    · exact .inr ⟨rfl, fun hl => h (List.Lex.cons hl)⟩
    · exact absurd (List.Lex.rel hab) h
  · rintro (hab | ⟨rfl, hl⟩) h
    · cases h with
      | cons h => exact lt_irrefl _ hab
      | rel h => exact lt_asymm hab h
    · cases h with
      | cons h => exact hl h
      | rel h => exact lt_irrefl _ h

/-- A common beginning does not matter. -/
theorem append_le_append_iff_lex {p l l' : List α} : p ++ l ≤ p ++ l' ↔ l ≤ l' := by
  induction p with
  | nil => rfl
  | cons a p ih =>
    rw [List.cons_append, List.cons_append, cons_le_cons_iff_lex, ih]
    simp

/-- A list between two lists with one beginning has that beginning. -/
theorem prefix_between {p a b c : List α} (ha : p <+: a) (hc : p <+: c) (hab : a ≤ b) (hbc : b ≤ c) :
    p <+: b := by
  induction p generalizing a b c with
  | nil => exact List.nil_prefix
  | cons x p ih =>
    obtain ⟨a, rfl⟩ := ha
    obtain ⟨c, rfl⟩ := hc
    cases b with
    | nil => exact absurd hab (not_le.mpr List.Lex.nil)
    | cons y b =>
      rw [List.cons_append, cons_le_cons_iff_lex] at hab hbc
      rcases hab with hxy | ⟨rfl, hab⟩
      · rcases hbc with hyx | ⟨rfl, -⟩
        · exact absurd hyx (lt_asymm hxy)
        · exact absurd hxy (lt_irrefl _)
      · have hbc : b ≤ p ++ c := hbc.elim (fun h => absurd h (lt_irrefl _)) And.right
        exact List.cons_prefix_cons.mpr ⟨rfl, ih (List.prefix_append p a) (List.prefix_append p c) hab hbc⟩

/-- The smallest list of its length or of a greater one. -/
theorem replicate_le {a : α} (ha : ∀ b, a ≤ b) {n : ℕ} {l : List α} (h : n ≤ l.length) :
    List.replicate n a ≤ l := by
  induction n generalizing l with
  | zero =>
    cases l with
    | nil => exact le_rfl
    | cons b l => exact le_of_lt List.Lex.nil
  | succ n ih =>
    cases l with
    | nil => exact absurd h (by simp)
    | cons b l =>
      rw [List.replicate_succ, cons_le_cons_iff_lex]
      rcases (ha b).lt_or_eq with hb | hb
      · exact .inl hb
      · exact .inr ⟨hb, ih (Nat.le_of_succ_le_succ h)⟩

end Lexicographic

end Framework
