import Peershares.Framework.Glob
import Peershares.Model.Text

/-!
# The mask of a host is a glob

`WildcardMatch` returns for every text and every mask, reads nothing behind their ends, and is true for the texts of the
mask's language. At a star it tries the rest of the mask first, and else takes a character and stays at the star; this
is the same case distinction that `mem_globLanguage_many` makes.

* `wildcardMatch_iff` — the matcher
* `clientAllowed_iff` — the hosts that may use the interface
-/

open Framework

namespace Peershares

variable {str mask : List UInt8}

/-- What a character of a mask stands for. -/
def maskPiece (c : UInt8) : GlobPiece UInt8 := if c = 42 then .many else if c = 63 then .one else .char c

/-- The texts that a mask stands for. -/
def maskLanguage (mask : List UInt8) : Language UInt8 := globLanguage (mask.map maskPiece)

/-- The empty mask. -/
theorem mem_maskLanguage_nil : str ∈ maskLanguage [] ↔ str = [] := mem_globLanguage_nil

/-- A star stands for nothing, or for one more character. -/
theorem mem_maskLanguage_star : str ∈ maskLanguage (42 :: mask) ↔
    str ∈ maskLanguage mask ∨ ∃ c, ∃ back ∈ maskLanguage (42 :: mask), str = c :: back :=
  mem_globLanguage_many

/-- A question mark stands for one character. -/
theorem mem_maskLanguage_one : str ∈ maskLanguage (63 :: mask) ↔ ∃ c, ∃ back ∈ maskLanguage mask, str = c :: back :=
  mem_globLanguage_one

/-- Any other character for itself. -/
theorem mem_maskLanguage_char {m : UInt8} (hstar : m ≠ 42) (hone : m ≠ 63) :
    str ∈ maskLanguage (m :: mask) ↔ ∃ back ∈ maskLanguage mask, str = m :: back := by
  unfold maskLanguage
  rw [List.map_cons, maskPiece, if_neg hstar, if_neg hone]
  exact mem_globLanguage_char

/-! ### One round of the matcher -/

section

variable {p m : UInt8} {psz : List UInt8}

/-- At the end of the mask the text has to end. -/
theorem wildcardMatch_end : wildcardMatch psz (0 :: mask) = psz.head?.map (fun p => decide (p = 0)) := by
  rw [wildcardMatch.eq_def]
  exact if_pos rfl

/-- A star that stands for nothing. -/
theorem wildcardMatch_star_of_true (h : wildcardMatch psz mask = some true) :
    wildcardMatch psz (42 :: mask) = some true := by
  rw [wildcardMatch.eq_def]
  dsimp only
  rw [if_neg (by decide), if_pos rfl, h]

/-- And one that takes in a character. -/
theorem wildcardMatch_star_of_false (h : wildcardMatch (p :: psz) mask = some false) :
    wildcardMatch (p :: psz) (42 :: mask) = if p = 0 then some false else wildcardMatch psz (42 :: mask) := by
  rw [wildcardMatch.eq_def]
  dsimp only
  rw [if_neg (by decide), if_pos rfl, h]

/-- A question mark. -/
theorem wildcardMatch_one :
    wildcardMatch (p :: psz) (63 :: mask) = if p = 0 then some false else wildcardMatch psz mask := by
  rw [wildcardMatch.eq_def]
  dsimp only
  rw [if_neg (by decide), if_neg (by decide), if_pos rfl]

/-- Any other character. -/
theorem wildcardMatch_char (hzero : m ≠ 0) (hstar : m ≠ 42) (hone : m ≠ 63) :
    wildcardMatch (p :: psz) (m :: mask) = if p ≠ m then some false else wildcardMatch psz mask := by
  rw [wildcardMatch.eq_def]
  dsimp only
  rw [if_neg hzero, if_neg hstar, if_neg hone]

end

/-- One more character. -/
theorem cStr_cons (c : UInt8) (str : List UInt8) : cStr (c :: str) = c :: cStr str := rfl

/-- The empty text has its end. -/
theorem cStr_nil : cStr [] = [0] := rfl

/-! ### The whole run -/

/-- The matcher comes to an answer within the two texts, and it is that of the language. -/
def MatchOk (str mask : List UInt8) : Prop :=
  ∃ b, wildcardMatch (cStr str) (cStr mask) = some b ∧ (b = true ↔ str ∈ maskLanguage mask)

/-- The end of the mask. -/
theorem matchOk_nil (hstr : 0 ∉ str) : MatchOk str [] := by
  unfold MatchOk
  rw [cStr_nil, wildcardMatch_end, mem_maskLanguage_nil]
  cases str with
  | nil => exact ⟨true, rfl, by simp⟩
  | cons c str =>
    have hc : c ≠ 0 := fun heq => hstr (heq ▸ List.mem_cons_self)
    exact ⟨false, by simp [cStr, hc], by simp⟩

/-- A star: the induction is on the text. -/
theorem matchOk_star (hstr : 0 ∉ str) (ih : ∀ s, 0 ∉ s → MatchOk s mask) : MatchOk str (42 :: mask) := by
  induction str with
  | nil =>
    obtain ⟨b, hb, hiff⟩ := ih [] hstr
    refine ⟨b, ?_, ?_⟩
    · rw [cStr_nil] at hb ⊢
      rw [cStr_cons]
      cases b with
      | true => exact wildcardMatch_star_of_true hb
      | false => rw [wildcardMatch_star_of_false hb, if_pos rfl]
    · rw [hiff, mem_maskLanguage_star]
      simp
  | cons c str ihstr =>
    obtain ⟨hc, hrest⟩ := not_or.mp (fun h => hstr (List.mem_cons.mpr h))
    obtain ⟨b, hb, hiff⟩ := ih (c :: str) hstr
    obtain ⟨b', hb', hiff'⟩ := ihstr hrest
    unfold MatchOk
    rw [cStr_cons 42, mem_maskLanguage_star]
    cases b with
    | true => exact ⟨true, wildcardMatch_star_of_true hb, by simp [hiff.mp rfl]⟩
    | false =>
      refine ⟨b', ?_, ?_⟩
      · rw [cStr_cons c] at hb ⊢
        rw [wildcardMatch_star_of_false hb, if_neg (Ne.symm hc)]
        exact hb'
      · have hno : c :: str ∉ maskLanguage mask := fun h => absurd (hiff.mpr h) (by simp)
        rw [hiff']
        simp [hno]

/-- A question mark: the text must go on. -/
theorem matchOk_one (hstr : 0 ∉ str) (ih : ∀ s, 0 ∉ s → MatchOk s mask) : MatchOk str (63 :: mask) := by
  unfold MatchOk
  rw [cStr_cons 63, mem_maskLanguage_one]
  cases str with
  | nil => exact ⟨false, by rw [cStr_nil, wildcardMatch_one, if_pos rfl], by simp⟩
  | cons c str =>
    obtain ⟨hc, hrest⟩ := not_or.mp (fun h => hstr (List.mem_cons.mpr h))
    obtain ⟨b, hb, hiff⟩ := ih str hrest
    refine ⟨b, by rw [cStr_cons c, wildcardMatch_one, if_neg (Ne.symm hc), hb], ?_⟩
    rw [hiff]
    simp

/-- Any other character: the text must go on with it. -/
theorem matchOk_char {m : UInt8} (hzero : m ≠ 0) (hstar : m ≠ 42) (hone : m ≠ 63) (hstr : 0 ∉ str)
    (ih : ∀ s, 0 ∉ s → MatchOk s mask) : MatchOk str (m :: mask) := by
  unfold MatchOk
  rw [cStr_cons m, mem_maskLanguage_char hstar hone]
  cases str with
  | nil => exact ⟨false, by rw [cStr_nil, wildcardMatch_char hzero hstar hone, if_pos (Ne.symm hzero)], by simp⟩
  | cons c str =>
    obtain ⟨-, hrest⟩ := not_or.mp (fun h => hstr (List.mem_cons.mpr h))
    obtain ⟨b, hb, hiff⟩ := ih str hrest
    rw [cStr_cons c, wildcardMatch_char hzero hstar hone]
    split_ifs with hne
    · exact ⟨false, rfl, by simp [hne]⟩
    · rw [not_not] at hne
      subst hne
      refine ⟨b, hb, ?_⟩
      rw [hiff]
      simp

/-- The whole mask: the induction is on it. -/
theorem matchOk (hstr : 0 ∉ str) (hmask : 0 ∉ mask) : MatchOk str mask := by
  induction mask generalizing str with
  | nil => exact matchOk_nil hstr
  | cons m mask ih =>
    obtain ⟨hm, hrest⟩ := not_or.mp (fun h => hmask (List.mem_cons.mpr h))
    have ih' : ∀ s, 0 ∉ s → MatchOk s mask := fun s hs => ih hs hrest
    by_cases hstar : m = 42
    · subst hstar
      exact matchOk_star hstr ih'
    by_cases hone : m = 63
    · subst hone
      exact matchOk_one hstr ih'
    exact matchOk_char (Ne.symm hm) hstar hone hstr ih'

/-- **`WildcardMatch` is glob matching**: it returns, without a look behind the ends, and says whether the text is one
that the mask stands for. -/
theorem wildcardMatch_iff (hstr : 0 ∉ str) (hmask : 0 ∉ mask) :
    ∃ b, wildcardMatch (cStr str) (cStr mask) = some b ∧ (b = true ↔ str ∈ maskLanguage mask) :=
  matchOk hstr hmask

/-- An address of the local network and a mask for it. -/
theorem wildcardMatch_iff_local :
    ∃ b, wildcardMatch (cStr [49, 48, 46, 55]) (cStr [49, 63, 46, 42]) = some b ∧
      (b = true ↔ [49, 48, 46, 55] ∈ maskLanguage [49, 63, 46, 42]) :=
  wildcardMatch_iff (by decide) (by decide)

/-- **`ClientAllowed`**: the loopback address, and what is in the language of one of the masks. -/
theorem clientAllowed_iff {vAllow : List (List UInt8)} (hstr : 0 ∉ str) (hallow : ∀ strAllow ∈ vAllow, 0 ∉ strAllow) :
    ∃ b, clientAllowed vAllow str = some b ∧
      (b = true ↔ str = loopback ∨ ∃ strAllow ∈ vAllow, str ∈ maskLanguage strAllow) := by
  have hany : ∃ b, matchesAny str vAllow = some b ∧ (b = true ↔ ∃ strAllow ∈ vAllow, str ∈ maskLanguage strAllow) := by
    induction vAllow with
    | nil => exact ⟨false, rfl, by simp⟩
    | cons strAllow vAllow ih =>
      obtain ⟨hmask, hrest⟩ := List.forall_mem_cons.mp hallow
      obtain ⟨b, hb, hiff⟩ := matchOk hstr hmask
      rw [matchesAny, hb]
      cases b with
      | true => exact ⟨true, rfl, by simp [hiff.mp rfl]⟩
      | false =>
        obtain ⟨b', hb', hiff'⟩ := ih hrest
        have hno : str ∉ maskLanguage strAllow := fun h => absurd (hiff.mpr h) (by simp)
        refine ⟨b', hb', ?_⟩
        rw [hiff']
        simp [hno]
  unfold clientAllowed
  split_ifs with hlocal
  · exact ⟨true, rfl, by simp [hlocal]⟩
  · obtain ⟨b, hb, hiff⟩ := hany
    exact ⟨b, hb, by rw [hiff]; simp [hlocal]⟩

end Peershares
