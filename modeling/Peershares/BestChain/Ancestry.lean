import Peershares.BestChain.Checkpoint

/-!
# What the tests against the checkpoint decide

`ValidateSyncCheckpoint` and `CheckSync` walk down the links `pprev` to the height of the other block and
compare hashes there. In a tree where each parent is one lower the walk always arrives, and what it finds
is the one ancestor at that height, so the comparison decides which block descends from which.

* `Globals.TreeShape` — the shape of the tree
* `BlockPtr.lowerTo_of_heightsOk` — the walk arrives, at the ancestor of that height
* `checkpoint_tests_exact` — the verdicts of both functions
-/

open Framework

namespace Peershares

/-- The walk down to a height ends at the ancestor of that height, or at once at a lower block. -/
theorem BlockPtr.lowerTo_of_heightsOk {p : BlockPtr} (h : p.HeightsOk) (hne : p ≠ []) (nHeight : ℕ) :
    ∃ q, p.lowerTo nHeight = some q ∧ q <:+ p ∧ q.length = min p.length (nHeight + 1) := by
  induction p with
  | nil => exact absurd rfl hne
  | cons e p ih =>
    obtain ⟨hheight, hrest⟩ := h
    rw [lowerTo]
    split_ifs with hlt
    · have hne' : p ≠ [] := by
        rintro rfl
        rw [hheight, List.length_nil] at hlt
        exact absurd hlt (by simp)
      obtain ⟨q, hlower, hs, hlen⟩ := ih hrest hne'
      refine ⟨q, hlower, hs.trans (List.suffix_cons e p), ?_⟩
      rw [hlen, List.length_cons]
      omega
    · refine ⟨e :: p, rfl, List.suffix_rfl, ?_⟩
      rw [List.length_cons]
      omega

/-- A branch has one block more than its height. -/
theorem BlockPtr.HeightsOk.length_eq {p : BlockPtr} (h : p.HeightsOk) (hne : p ≠ []) :
    p.length = p.nHeight + 1 := by
  cases p with
  | nil => exact absurd rfl hne
  | cons e p => rw [BlockPtr.nHeight_cons, h.1, List.length_cons]

/-- The tree is well formed: an entry is filed under its hash, its parent is in the tree too, and the
heights count down to genesis, which has none. -/
structure Globals.TreeShape (g : Globals) : Prop where
  keyed : ∀ hash p, g.mapBlockIndex.lookup hash = some p → p.hash = hash ∧ p ≠ []
  closed : ∀ e p, g.InTree (e :: p) → p ≠ [] → g.InTree p
  heights : ∀ p, g.InTree p → p.HeightsOk

/-- The tree of a running node is well formed. -/
theorem Globals.TreeInv.treeShape {P : Params} {g : Globals} (h : g.TreeInv P) : g.TreeShape := by
  refine ⟨?_, h.closed, fun p hp => (h.treeOk p hp).heightsOk⟩
  intro hash p hl
  have hkey := h.keyed hash p hl
  refine ⟨hkey, h.ne_nil ?_⟩
  rw [Globals.InTree, hkey]
  exact hl

/-- The new block, of hash `hash` on top of `pindexPrev`, descends from the checkpoint or is it, or it is
below it and already there. -/
def Globals.CheckSyncRule (g : Globals) (ps : BlockPtr) (hash : Uint256) (pindexPrev : BlockPtr) : Prop :=
  ps <:+ pindexPrev ∨ (hash = g.hashSyncCheckpoint ∧ pindexPrev.nHeight + 1 = ps.nHeight) ∨
    (pindexPrev.nHeight + 1 < ps.nHeight ∧ (g.mapBlockIndex.lookup hash).isSome)

instance (g : Globals) (ps : BlockPtr) (hash : Uint256) (pindexPrev : BlockPtr) :
    Decidable (g.CheckSyncRule ps hash pindexPrev) :=
  inferInstanceAs (Decidable (_ ∨ _ ∨ _))

namespace Globals.TreeShape

variable {P : Params} {g : Globals} {p q ps : BlockPtr} {hash : Uint256}

/-- What is found under a hash is in the tree. -/
theorem inTree (h : g.TreeShape) (hl : g.mapBlockIndex.lookup hash = some p) : g.InTree p := by
  unfold Globals.InTree
  rw [(h.keyed hash p hl).1]
  exact hl

/-- And is not empty. -/
theorem ne_nil (h : g.TreeShape) (hp : g.InTree p) : p ≠ [] := (h.keyed p.hash p hp).2

/-- Its parts are in the tree. -/
theorem suffix (h : g.TreeShape) (hp : g.InTree p) (hs : q <:+ p) (hne : q ≠ []) : g.InTree q := by
  induction p with
  | nil => exact absurd (List.suffix_nil.mp hs) hne
  | cons e p ih =>
    rcases List.suffix_cons_iff.mp hs with rfl | hs
    · exact hp
    · refine ih (h.closed e p hp ?_) hs
      rintro rfl
      exact hne (List.suffix_nil.mp hs)

/-- A descendant is not lower, and a descendant at the same height is the block itself. -/
theorem nHeight_of_suffix (h : g.TreeShape) (hp : g.InTree p) (hq : g.InTree q) (hs : q <:+ p) :
    q.nHeight ≤ p.nHeight ∧ (p.nHeight ≤ q.nHeight → q = p) := by
  have hlenp := (h.heights p hp).length_eq (h.ne_nil hp)
  have hlenq := (h.heights q hq).length_eq (h.ne_nil hq)
  have hle := hs.length_le
  refine ⟨by omega, ?_⟩
  intro hge
  exact hs.eq_of_length (by omega)

/-- **The walk to the height of another block** arrives, and at that block exactly when it is an
ancestor. -/
theorem walk (h : g.TreeShape) (hp : g.InTree p) (hq : g.InTree q) (hle : q.nHeight ≤ p.nHeight) :
    ∃ r, p.lowerTo q.nHeight = some r ∧ r.nHeight = q.nHeight ∧ (r.hash = q.hash ↔ q <:+ p) := by
  obtain ⟨r, hlower, hs, hlen⟩ := BlockPtr.lowerTo_of_heightsOk (h.heights p hp) (h.ne_nil hp) q.nHeight
  have hne : r ≠ [] := (BlockPtr.lowerTo_eq_some hlower).2.1
  have hr := h.suffix hp hs hne
  have hlenp := (h.heights p hp).length_eq (h.ne_nil hp)
  have hlenq := (h.heights q hq).length_eq (h.ne_nil hq)
  have hlenr := (h.heights r hr).length_eq hne
  refine ⟨r, hlower, by omega, ?_⟩
  constructor
  · intro hhash
    rw [← hr.unique hq hhash]
    exact hs
  · intro hqp
    -- two ancestors at one height are the same block
    have hrq : r <:+ q := List.suffix_of_suffix_length_le hs hqp (by omega)
    rw [hrq.eq_of_length (by omega)]

/-- No walk falls off the tree. -/
theorem lowerTo_ne_none (h : g.TreeShape) (hp : g.InTree p) (nHeight : ℕ) :
    p.lowerTo nHeight ≠ none := by
  obtain ⟨r, hlower, -, -⟩ := BlockPtr.lowerTo_of_heightsOk (h.heights p hp) (h.ne_nil hp) nHeight
  rw [hlower]
  simp

/-! ### `ValidateSyncCheckpoint` -/

/-- `ValidateSyncCheckpoint` asks whether the new one lies above the old one. -/
theorem validateSyncCheckpoint_eq (h : g.TreeShape)
    (hsync : g.mapBlockIndex.lookup g.hashSyncCheckpoint = some ps)
    (hrecv : g.mapBlockIndex.lookup hash = some p) :
    g.validateSyncCheckpoint hash = (decide (ps <:+ p ∧ ps ≠ p),
      if ps <:+ p ∨ p <:+ ps then g else { g with hashInvalidCheckpoint := hash }) := by
  have hps := h.inTree hsync
  have hp := h.inTree hrecv
  have hpskey := (h.keyed _ ps hsync).1
  have hpkey := (h.keyed hash p hrecv).1
  unfold Globals.validateSyncCheckpoint
  rw [hsync, hrecv]
  simp only
  by_cases hle : p.nHeight ≤ ps.nHeight
  · -- an older checkpoint is never taken
    rw [if_pos hle]
    obtain ⟨r, hlower, -, hiff⟩ := h.walk hps hp hle
    rw [hpkey] at hiff
    rw [hlower]
    simp only
    have hnot : ¬(ps <:+ p ∧ ps ≠ p) := by
      rintro ⟨hs, hne⟩
      exact hne ((h.nHeight_of_suffix hp hps hs).2 hle)
    have hor : (ps <:+ p ∨ p <:+ ps) ↔ p <:+ ps := by
      constructor
      · rintro (hs | hs)
        · rw [(h.nHeight_of_suffix hp hps hs).2 hle]
        · exact hs
      · exact Or.inr
    -- ancestor or not, it is refused; only a stranger is remembered as invalid
    by_cases hanc : p <:+ ps
    · rw [if_neg (not_not_intro (hiff.mpr hanc)), if_pos (hor.mpr hanc), decide_eq_false hnot]
    · rw [if_pos (fun heq => hanc (hiff.mp heq)), if_neg (fun heq => hanc (hor.mp heq)),
        decide_eq_false hnot]
  · -- a higher one is taken when it descends from the old one
    rw [if_neg hle]
    obtain ⟨r, hlower, -, hiff⟩ := h.walk hp hps (le_of_not_ge hle)
    rw [hpskey] at hiff
    rw [hlower]
    simp only
    have hnotle : ¬p <:+ ps := fun hs => hle (h.nHeight_of_suffix hps hp hs).1
    by_cases hdesc : ps <:+ p
    · have hne : ps ≠ p := by
        rintro rfl
        exact hle le_rfl
      rw [if_neg (not_not_intro (hiff.mpr hdesc)), if_pos (Or.inl hdesc),
        decide_eq_true (show ps <:+ p ∧ ps ≠ p from ⟨hdesc, hne⟩)]
    · have hneither : ¬(ps <:+ p ∨ p <:+ ps) := by
        rintro (hs | hs)
        · exact hdesc hs
        · exact hnotle hs
      rw [if_pos (fun heq => hdesc (hiff.mp heq)), if_neg hneither,
        decide_eq_false (fun hs => hdesc hs.1)]

/-! ### `CheckSync` -/

/-- **`CheckSync`** compares with the checkpoint by height and by ancestry. -/
theorem checkSync_eq (h : g.TreeShape) (hnet : P.fTestNet = false)
    (hsync : g.mapBlockIndex.lookup g.hashSyncCheckpoint = some ps) (hp : g.InTree p) :
    g.checkSync P hash p = .ok (decide (g.CheckSyncRule ps hash p)) := by
  have hps := h.inTree hsync
  have hpskey := (h.keyed _ ps hsync).1
  unfold Globals.checkSync Globals.CheckSyncRule
  rw [hnet, hsync]
  simp only [Bool.false_eq_true, if_false]
  rcases lt_trichotomy (p.nHeight + 1) ps.nHeight with hlt | heq | hgt
  · have hnot : ¬ps <:+ p := fun hs => by
      have := (h.nHeight_of_suffix hp hps hs).1
      omega
    have hnone : (g.mapBlockIndex.lookup hash).isNone = !(g.mapBlockIndex.lookup hash).isSome := by
      rw [Option.not_isSome]
    rw [hnone]
    by_cases hknown : (g.mapBlockIndex.lookup hash).isSome = true <;>
      simp [hnot, hlt, hlt.ne, not_lt.mpr hlt.le, hknown]
  · have hnot : ¬ps <:+ p := fun hs => by
      have := (h.nHeight_of_suffix hp hps hs).1
      omega
    by_cases hhash : hash = g.hashSyncCheckpoint <;> simp [hnot, heq, hhash]
  · -- above the checkpoint only the walk counts
    obtain ⟨r, hlower, hheight, hiff⟩ := h.walk hp hps (by omega)
    rw [hpskey] at hiff
    have hanc : p.ancestorHasHash ps.nHeight g.hashSyncCheckpoint = decide (ps <:+ p) := by
      unfold BlockPtr.ancestorHasHash
      rw [hlower]
      simp only [hheight, decide_true, Bool.true_and]
      exact decide_eq_decide.mpr hiff
    rw [hanc]
    by_cases hdesc : ps <:+ p <;> simp [hdesc, hgt, hgt.ne', not_lt.mpr hgt.le]

end Globals.TreeShape

/-- **The tests against the checkpoint are exact.** In a well-formed tree that has the checkpoint,
`ValidateSyncCheckpoint` accepts a block of the tree exactly when it is a strict descendant, and marks it
as invalid exactly when neither is an ancestor of the other; `CheckSync` follows its rule, except on the
test network, which has no checkpoints and lets every block pass; and no walk falls off the tree. -/
theorem checkpoint_tests_exact {P : Params} {g : Globals} {ps : BlockPtr} (h : g.TreeShape)
    (hsync : g.mapBlockIndex.lookup g.hashSyncCheckpoint = some ps) :
    (∀ hash p, g.mapBlockIndex.lookup hash = some p →
      ((g.validateSyncCheckpoint hash).1 = true ↔ ps <:+ p ∧ ps ≠ p) ∧
      (g.validateSyncCheckpoint hash).2 =
        if ps <:+ p ∨ p <:+ ps then g else { g with hashInvalidCheckpoint := hash }) ∧
    (∀ hash, g.mapBlockIndex.lookup hash = none → g.validateSyncCheckpoint hash = (false, g)) ∧
    (∀ hash p, g.InTree p → g.checkSync P hash p =
      .ok (decide (P.fTestNet ∨ g.CheckSyncRule ps hash p))) ∧
    ∀ p q, g.InTree p → g.InTree q → p.lowerTo q.nHeight ≠ none := by
  refine ⟨?_, ?_, ?_, fun p q hp _ => h.lowerTo_ne_none hp q.nHeight⟩
  · intro hash p hp
    rw [h.validateSyncCheckpoint_eq hsync hp]
    exact ⟨by simp, rfl⟩
  · intro hash hnone
    unfold Globals.validateSyncCheckpoint
    rw [hsync, hnone]
  · intro hash p hp
    cases hnet : P.fTestNet with
    | false =>
      rw [h.checkSync_eq hnet hsync hp]
      simp
    | true =>
      unfold Globals.checkSync
      rw [hnet]
      simp

namespace Sample

def indexOf (hashBlock : Uint256) (nHeight : ℕ) : CBlockIndex :=
  ⟨hashBlock, 0, 0, nHeight, nHeight, false, nHeight, 0⟩

def lowerBlock : BlockPtr := [indexOf 1 0]

def upperBlock : BlockPtr := indexOf 2 1 :: lowerBlock

/-- Genesis, and the checkpoint on top of it. -/
def twoBlocks : Globals :=
  { mapBlockIndex := ((∅ : Map Uint256 BlockPtr).insert (1 : ℕ) lowerBlock).insert (2 : ℕ) upperBlock
    hashSyncCheckpoint := 2 }

/-- The sample index with two blocks. -/
theorem lookup_twoBlocks {hash : Uint256} {p : BlockPtr}
    (h : twoBlocks.mapBlockIndex.lookup hash = some p) :
    (hash = 2 ∧ p = upperBlock) ∨ (hash = 1 ∧ p = lowerBlock) := by
  unfold twoBlocks at h
  rw [Map.lookup_insert_eq, Map.lookup_insert_eq] at h
  split_ifs at h with htwo hone
  · exact Or.inl ⟨htwo, (Option.some.inj h).symm⟩
  · exact Or.inr ⟨hone, (Option.some.inj h).symm⟩
  · exact absurd h (by simp)

/-- Its lower block. -/
theorem inTree_lowerBlock : twoBlocks.InTree lowerBlock := by
  unfold Globals.InTree
  decide

/-- Its checkpoint. -/
theorem lookup_checkpoint : twoBlocks.mapBlockIndex.lookup twoBlocks.hashSyncCheckpoint = some upperBlock := by
  decide

/-- It is a tree. -/
theorem treeShape_twoBlocks : twoBlocks.TreeShape := by
  refine ⟨?_, ?_, ?_⟩
  · intro hash p h
    obtain ⟨rfl, rfl⟩ | ⟨rfl, rfl⟩ := lookup_twoBlocks h
    · exact ⟨rfl, by decide⟩
    · exact ⟨rfl, by decide⟩
  · intro e p hin hne
    obtain ⟨-, heq⟩ | ⟨-, heq⟩ := lookup_twoBlocks hin
    · cases heq
      exact inTree_lowerBlock
    · cases heq
      exact absurd rfl hne
  · intro p hin
    obtain ⟨-, heq⟩ | ⟨-, heq⟩ := lookup_twoBlocks hin
    · rw [heq]
      exact ⟨rfl, rfl, trivial⟩
    · rw [heq]
      exact ⟨rfl, trivial⟩

end Sample

/-- The checkpoint accepts no other block at its height on the main network. -/
theorem checkpoint_tests_twoBlocks :
    Sample.twoBlocks.checkSync { Sample.params with fTestNet := false } 3 Sample.lowerBlock =
      .ok false := by
  have hexact := checkpoint_tests_exact (P := { Sample.params with fTestNet := false })
    Sample.treeShape_twoBlocks Sample.lookup_checkpoint
  rw [hexact.2.2.1 3 Sample.lowerBlock Sample.inTree_lowerBlock]
  decide

/-- The test network has no checkpoints: a rival of the checkpointed block passes. -/
theorem checkSync_testNet : ¬ ∀ (P : Params) (g : Globals) (ps p : BlockPtr) (hash : Uint256), g.TreeShape →
    g.mapBlockIndex.lookup g.hashSyncCheckpoint = some ps → g.InTree p →
    (g.checkSync P hash p = .ok true ↔ g.CheckSyncRule ps hash p) := by
  intro h
  have hrule := h Sample.params Sample.twoBlocks Sample.upperBlock
    Sample.lowerBlock 3 Sample.treeShape_twoBlocks Sample.lookup_checkpoint Sample.inTree_lowerBlock
  have hpass : Sample.twoBlocks.checkSync Sample.params 3 Sample.lowerBlock = .ok true := rfl
  exact absurd (hrule.mp hpass) (by decide)

end Peershares
