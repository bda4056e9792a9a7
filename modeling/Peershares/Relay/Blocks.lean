import Peershares.BestChain.Agreement
import Peershares.BestChain.Frame
import Peershares.Model.ProcessBlock

/-!
# The orphan blocks

A block whose parent is not in `mapBlockIndex` is kept in two maps, and its proof-of-stake in a set.
`Held` says that the two maps hold the same blocks. Storing an orphan and the resolving loop keep it,
as long as no call of `AcceptBlock` throws.

Two properties that the code aims at hold only in part.

* An orphan should wait only for a block that is not known (`NoneKnown`). But `AcceptBlock` can index
  a block and then refuse it; `ProcessBlock` returns, or goes on, without looking for the orphans that
  wait for it.
* `setStakeSeenOrphan` should have the proofs-of-stake of the orphans (`StakesShown`). But it is a set:
  of two orphans with the same one, the first to leave takes it out.

What a call of `ProcessBlock` has to meet is said about the calls of `AcceptBlock` that it makes
(`processCalls`): the work queue decides which orphans are tried, and each call meets the store that the
ones before it have left. The resolving loop is taken apart at two places. Between two rounds
(`BetweenRounds`) the maps hold the same blocks, and an orphan whose parent is known has this parent in
the queue. Inside a round (`InRound`) the orphans that were tried have left the one map, and the other one
still has the whole range.

The results are

* `BlockRun.noneKnown` — the first property, over the runs in which no refused block is waited for
* `BlockRun.stakesShown` — the second, over the runs in which no duplicate is stored
* `processBlock_knownParent`, `processBlock_forgetsStake` — the runs that break them
-/

open Framework Framework.Command

namespace Peershares

/-- The kernel of a proof-of-stake block is not null, so a proof-of-work block has none of its own. -/
theorem CBlock.getProofOfStake_ne {b b' : CBlock} (hpos : b.isProofOfStake = true)
    (hpow : b'.isProofOfStake = false) : b.getProofOfStake ≠ b'.getProofOfStake := by
  -- what is no stake has the null outpoint
  have hnull : b'.getProofOfStake = (COutPoint.null, 0) := by
    unfold CBlock.getProofOfStake
    unfold CBlock.isProofOfStake at hpow
    split
    · next tx _ hvtx =>
      rw [hvtx] at hpow
      simp only at hpow
      split
      · simp [hpow]
      · rfl
    · rfl
  rw [hnull]
  unfold CBlock.isProofOfStake at hpos
  split at hpos
  swap
  · cases hpos
  next tx vtx hvtx =>
  unfold CBlock.getProofOfStake
  rw [hvtx]
  simp only
  split
  · next txin vin hvin =>
    rw [if_pos hpos]
    intro heq
    have hprevout : txin.prevout = COutPoint.null := congrArg Prod.fst heq
    -- a coinstake has a first input, which is not null
    unfold CTransaction.isCoinStake at hpos
    rw [hvin] at hpos
    split at hpos
    · next txin' _ _ _ _ hin _ =>
      cases hin
      rw [hprevout] at hpos
      simp [COutPoint.isNull, COutPoint.null] at hpos
    · cases hpos
  · next hvin =>
    unfold CTransaction.isCoinStake at hpos
    rw [hvin] at hpos
    cases hpos

namespace BlockStore

/-- The block is an orphan in the store. -/
def Stored (P : Params) (s : BlockStore) (b : CBlock) : Prop :=
  s.mapOrphanBlocks.lookup (b.getHash P) = some b

/-- The two maps hold the same blocks, each once, under its hash and under that of its parent. -/
structure Held (P : Params) (s : BlockStore) : Prop where
  keyed : ∀ hash b, s.mapOrphanBlocks.lookup hash = some b → b.getHash P = hash
  byPrev_keyed : ∀ e ∈ s.mapOrphanBlocksByPrev, e.1 = e.2.hashPrevBlock
  stored_iff : ∀ b, s.Stored P b ↔ (b.hashPrevBlock, b) ∈ s.mapOrphanBlocksByPrev
  nodup : s.mapOrphanBlocksByPrev.Nodup

/-- No orphan waits for a block that is in `mapBlockIndex`. -/
def NoneKnown (s : BlockStore) : Prop :=
  ∀ e ∈ s.mapOrphanBlocksByPrev, s.node.mapBlockIndex.lookup e.1 = none

/-- `setStakeSeenOrphan` has the proofs-of-stake of the orphans, and no two share one. -/
structure StakesShown (P : Params) (s : BlockStore) : Prop where
  mem_iff : ∀ x, x ∈ s.setStakeSeenOrphan ↔
    ∃ b, s.Stored P b ∧ b.isProofOfStake = true ∧ b.getProofOfStake = x
  distinct : ∀ b b', s.Stored P b → s.Stored P b' → b.isProofOfStake = true →
    b'.isProofOfStake = true → b.getProofOfStake = b'.getProofOfStake → b = b'

variable {P : Params} {s : BlockStore} {b block : CBlock} {hash : Uint256}

/-- An entry of `mapOrphanBlocksByPrev` is a stored orphan. -/
theorem Held.stored_of_mem (h : s.Held P) {e : Uint256 × CBlock} (he : e ∈ s.mapOrphanBlocksByPrev) :
    s.Stored P e.2 := by
  refine (h.stored_iff e.2).mpr ?_
  rw [← h.byPrev_keyed e he]
  exact he

/-- The three parts of the store of orphans are empty. -/
structure NoOrphans (s : BlockStore) : Prop where
  mapOrphanBlocks : s.mapOrphanBlocks = ∅
  byPrev : s.mapOrphanBlocksByPrev = []
  stakes : s.setStakeSeenOrphan = ∅

/-- Without orphans none is stored. -/
theorem NoOrphans.not_stored (h : s.NoOrphans) (b : CBlock) : ¬ s.Stored P b := by
  unfold Stored
  rw [h.mapOrphanBlocks, Map.lookup_empty]
  simp

/-- The two maps agree when both are empty. -/
theorem NoOrphans.held (h : s.NoOrphans) : s.Held P where
  keyed := by
    intro hash b hlookup
    rw [h.mapOrphanBlocks, Map.lookup_empty] at hlookup
    cases hlookup
  byPrev_keyed := by
    intro e he
    rw [h.byPrev] at he
    cases he
  stored_iff := by
    intro b
    rw [h.byPrev]
    exact iff_of_false (h.not_stored b) (by simp)
  nodup := by
    rw [h.byPrev]
    exact List.nodup_nil

/-- No orphan has its parent in the index. -/
theorem NoOrphans.none_known (h : s.NoOrphans) : s.NoneKnown := by
  intro e he
  rw [h.byPrev] at he
  cases he

/-- And no stake is remembered. -/
theorem NoOrphans.stakes_shown (h : s.NoOrphans) : s.StakesShown P where
  mem_iff := by
    intro x
    rw [h.stakes]
    refine iff_of_false (Finset.notMem_empty x) ?_
    rintro ⟨b, hb, -⟩
    exact h.not_stored b hb
  distinct := fun b _ hb => absurd hb (h.not_stored b)

/-- Two orphans with one hash are one. -/
theorem Stored.eq_of_hash {b' : CBlock} (h : s.Stored P b) (h' : s.Stored P b')
    (heq : b.getHash P = b'.getHash P) : b = b' := by
  unfold Stored at h h'
  rw [heq, h'] at h
  exact (Option.some.inj h).symm

/-! ### Leaving the store -/

/-- The orphans after one is erased. -/
theorem lookup_dropOrphan (hash : Uint256) : (s.dropOrphan P b).mapOrphanBlocks.lookup hash =
    if hash = b.getHash P then none else s.mapOrphanBlocks.lookup hash :=
  Map.lookup_erase_eq _ _ _

/-- The others are still stored. -/
theorem stored_dropOrphan (hb : s.Stored P b) (b' : CBlock) :
    (s.dropOrphan P b).Stored P b' ↔ s.Stored P b' ∧ b' ≠ b := by
  unfold Stored
  rw [lookup_dropOrphan]
  constructor
  · intro h
    split_ifs at h with heq
    refine ⟨h, ?_⟩
    rintro rfl
    exact heq rfl
  · rintro ⟨h, hne⟩
    rw [if_neg, h]
    intro heq
    exact hne (Stored.eq_of_hash h hb heq)

/-- `Held` reads nothing but the two maps. -/
theorem Held.congr {s' : BlockStore} (h : s.Held P) (hmap : s'.mapOrphanBlocks = s.mapOrphanBlocks)
    (hprev : s'.mapOrphanBlocksByPrev = s.mapOrphanBlocksByPrev) : s'.Held P where
  keyed := by
    rw [hmap]
    exact h.keyed
  byPrev_keyed := by
    rw [hprev]
    exact h.byPrev_keyed
  stored_iff := by
    intro b
    unfold Stored
    rw [hmap, hprev]
    exact h.stored_iff b
  nodup := by
    rw [hprev]
    exact h.nodup

/-- Only the orphans and their stakes matter. -/
theorem StakesShown.congr {s' : BlockStore} (h : s.StakesShown P)
    (hmap : s'.mapOrphanBlocks = s.mapOrphanBlocks)
    (hset : s'.setStakeSeenOrphan = s.setStakeSeenOrphan) : s'.StakesShown P := by
  have hstored : ∀ b, s'.Stored P b ↔ s.Stored P b := by
    intro b
    unfold Stored
    rw [hmap]
  constructor
  · intro x
    rw [hset, h.mem_iff]
    simp only [hstored]
  · intro b b' hb hb'
    exact h.distinct b b' ((hstored b).mp hb) ((hstored b').mp hb')

/-- An orphan that leaves takes its proof-of-stake with it, which no other has. -/
theorem StakesShown.dropOrphan (h : s.StakesShown P) (hb : s.Stored P b) :
    (s.dropOrphan P b).StakesShown P where
  mem_iff := by
    intro x
    change x ∈ s.setStakeSeenOrphan.erase b.getProofOfStake ↔ _
    rw [Finset.mem_erase, h.mem_iff]
    constructor
    · rintro ⟨hne, b', hb', hpos, rfl⟩
      refine ⟨b', (stored_dropOrphan hb b').mpr ⟨hb', ?_⟩, hpos, rfl⟩
      rintro rfl
      exact hne rfl
    · rintro ⟨b', hb', hpos, rfl⟩
      obtain ⟨hstored, hne⟩ := (stored_dropOrphan hb b').mp hb'
      refine ⟨fun heq => ?_, b', hstored, hpos, rfl⟩
      cases hkind : b.isProofOfStake with
      | true => exact hne (h.distinct b' b hstored hb hpos hkind heq)
      | false => exact CBlock.getProofOfStake_ne hpos hkind heq
  distinct := by
    intro b₁ b₂ h₁ h₂
    exact h.distinct b₁ b₂ ((stored_dropOrphan hb b₁).mp h₁).1 ((stored_dropOrphan hb b₂).mp h₂).1

/-! ### Entering the store -/

/-- The orphans after one is added. -/
theorem stored_putOrphan (hnew : s.mapOrphanBlocks.lookup (b.getHash P) = none) (b' : CBlock) :
    (s.putOrphan P b).Stored P b' ↔ s.Stored P b' ∨ b' = b := by
  unfold Stored
  change (s.mapOrphanBlocks.insert (b.getHash P) b).lookup (b'.getHash P) = some b' ↔ _
  rw [Map.lookup_insert_eq]
  constructor
  · intro h
    split_ifs at h
    · exact .inr (Option.some.inj h).symm
    · exact .inl h
  · rintro (h | rfl)
    · rw [if_neg, h]
      intro heq
      rw [heq, hnew] at h
      cases h
    · exact if_pos rfl

/-- Both maps are written. -/
theorem Held.putOrphan (h : s.Held P) (hnew : s.mapOrphanBlocks.lookup (b.getHash P) = none) :
    (s.putOrphan P b).Held P where
  keyed := by
    intro hash b' hlookup
    change (s.mapOrphanBlocks.insert (b.getHash P) b).lookup hash = some b' at hlookup
    rw [Map.lookup_insert_eq] at hlookup
    split_ifs at hlookup with heq
    · rw [← Option.some.inj hlookup, heq]
    · exact h.keyed hash b' hlookup
  byPrev_keyed := by
    intro e he
    rcases List.mem_append.mp he with hold | hlast
    · exact h.byPrev_keyed e hold
    · rw [List.mem_singleton.mp hlast]
  stored_iff := by
    intro b'
    rw [stored_putOrphan hnew, h.stored_iff]
    change _ ↔ (b'.hashPrevBlock, b') ∈ s.mapOrphanBlocksByPrev ++ [(b.hashPrevBlock, b)]
    rw [List.mem_append, List.mem_singleton, Prod.mk.injEq]
    refine or_congr Iff.rfl ⟨?_, fun h => h.2⟩
    rintro rfl
    exact ⟨rfl, rfl⟩
  nodup := by
    refine List.Nodup.append h.nodup (List.nodup_singleton _) ?_
    -- an entry of the block would be an orphan with its hash
    rw [List.disjoint_singleton]
    intro hmem
    have hstored := (h.stored_iff b).mpr hmem
    unfold Stored at hstored
    rw [hnew] at hstored
    cases hstored

/-- A block is stored because its parent is not in the index. -/
theorem NoneKnown.putOrphan (h : s.NoneKnown)
    (hprev : s.node.mapBlockIndex.lookup b.hashPrevBlock = none) : (s.putOrphan P b).NoneKnown := by
  intro e he
  rcases List.mem_append.mp he with hold | hlast
  · exact h e hold
  · rw [List.mem_singleton.mp hlast]
    exact hprev

/-- An orphan that is stored adds its proof-of-stake, when it is not there yet. -/
theorem StakesShown.putOrphan (h : s.StakesShown P)
    (hnew : s.mapOrphanBlocks.lookup (b.getHash P) = none)
    (hstake : b.isProofOfStake = true → b.getProofOfStake ∉ s.setStakeSeenOrphan) :
    (s.putOrphan P b).StakesShown P where
  mem_iff := by
    intro x
    change x ∈ (if b.isProofOfStake then insert b.getProofOfStake s.setStakeSeenOrphan
      else s.setStakeSeenOrphan) ↔ _
    -- the orphans are the old ones and the new block
    have hor : (∃ b', (s.putOrphan P b).Stored P b' ∧ b'.isProofOfStake = true ∧
        b'.getProofOfStake = x) ↔
        x ∈ s.setStakeSeenOrphan ∨ (b.isProofOfStake = true ∧ b.getProofOfStake = x) := by
      rw [h.mem_iff]
      constructor
      · rintro ⟨b', hb', hpos, rfl⟩
        rcases (stored_putOrphan hnew b').mp hb' with hstored | rfl
        · exact .inl ⟨b', hstored, hpos, rfl⟩
        · exact .inr ⟨hpos, rfl⟩
      · rintro (⟨b', hb', hpos, rfl⟩ | ⟨hpos, rfl⟩)
        · exact ⟨b', (stored_putOrphan hnew b').mpr (.inl hb'), hpos, rfl⟩
        · exact ⟨b, (stored_putOrphan hnew b).mpr (.inr rfl), hpos, rfl⟩
    rw [hor]
    cases hkind : b.isProofOfStake with
    | true =>
      rw [if_pos rfl, Finset.mem_insert, or_comm]
      exact or_congr Iff.rfl ⟨fun h => ⟨rfl, h.symm⟩, fun h => h.2.symm⟩
    | false => simp
  distinct := by
    -- no older stake has the proof of the new one, or it would be in the set
    have hother : ∀ b', s.Stored P b' → b'.isProofOfStake = true → b.isProofOfStake = true →
        b'.getProofOfStake ≠ b.getProofOfStake := by
      intro b' hb' hpos' hpos heq
      exact hstake hpos ((h.mem_iff _).mpr ⟨b', hb', hpos', heq⟩)
    intro b₁ b₂ h₁ h₂ hpos₁ hpos₂ heq
    rcases (stored_putOrphan hnew b₁).mp h₁ with hold₁ | rfl
    · rcases (stored_putOrphan hnew b₂).mp h₂ with hold₂ | rfl
      · exact h.distinct b₁ b₂ hold₁ hold₂ hpos₁ hpos₂ heq
      · exact absurd heq (hother b₁ hold₁ hpos₁ hpos₂)
    · rcases (stored_putOrphan hnew b₂).mp h₂ with hold₂ | rfl
      · exact absurd heq.symm (hother b₂ hold₂ hpos₂ hpos₁)
      · rfl

end BlockStore

/-! ### The calls of `AcceptBlock` -/

section Calls

variable (P : Params) (K : KernelHash) (env : BlockEnv)

/-- The calls of `AcceptBlock` for the orphans of a round, each with the store that it meets. -/
def orphanCalls : List (Uint256 × CBlock) → List Uint256 → BlockStore → List (CBlock × BlockStore)
  | [], _, _ => []
  | (_, pblockOrphan) :: orphans, vWorkQueue, s =>
    (pblockOrphan, s) ::
      match acceptOrphan P K env vWorkQueue pblockOrphan s with
      | (.ok vWorkQueue, s) => orphanCalls orphans vWorkQueue s
      | (.error _, _) => []

/-- The calls of the resolving loop. -/
def resolveCalls : ℕ → List Uint256 → BlockStore → List (CBlock × BlockStore)
  | _, [], _ => []
  | 0, _ :: _, _ => []
  | nRounds + 1, hashPrev :: vWorkQueue, s =>
    let orphans := s.mapOrphanBlocksByPrev.filter (fun e => e.1 = hashPrev)
    orphanCalls P K env orphans vWorkQueue s ++
      match acceptOrphans P K env orphans vWorkQueue s with
      | (.ok vWorkQueue, s) => resolveCalls nRounds vWorkQueue (s.eraseRange hashPrev)
      | (.error _, _) => []

/-- The calls behind the checks of `ProcessBlock`. -/
def storeCalls (block : CBlock) (s : BlockStore) : List (CBlock × BlockStore) :=
  if (s.node.mapBlockIndex.lookup block.hashPrevBlock).isNone then []
  else
    (block, s) ::
      match acceptBlockSeen P K env block s with
      | (.ok (), s') =>
        resolveCalls P K env (s.mapOrphanBlocksByPrev.length + 1) [block.getHash P] s'
      | (.error _, _) => []

/-- The calls of `AcceptBlock` that `ProcessBlock` makes, in their order. -/
def processCalls (block : CBlock) (s : BlockStore) : List (CBlock × BlockStore) :=
  match checkArriving P K env block s with
  | (.ok (), s) => storeCalls P K env block s
  | (.error _, _) => []

/-- The call does not throw. -/
def callReturns (x : CBlock × BlockStore) : Bool :=
  match (accepting P K env x.1 x.2).1 with
  | .ok () => true
  | .error e => e.isReturn

/-- The call refuses a block that it has put into `mapBlockIndex`. -/
def indexesAndRefuses (x : CBlock × BlockStore) : Bool :=
  !(accepting P K env x.1 x.2).1.isOk
    && (x.2.node.mapBlockIndex.lookup (x.1.getHash P)).isNone
    && ((accepting P K env x.1 x.2).2.mapBlockIndex.lookup (x.1.getHash P)).isSome

/-- An orphan has this block as `hashPrevBlock`. -/
def BlockStore.awaits (block : CBlock) (s : BlockStore) : Bool :=
  s.mapOrphanBlocks.entries.any (fun e => e.2.hashPrevBlock = block.getHash P)

/-- No call of `AcceptBlock` throws. -/
def Returns (block : CBlock) (s : BlockStore) : Prop :=
  ∀ x ∈ processCalls P K env block s, callReturns P K env x = true

/-- No call of `AcceptBlock` refuses a block that it has put into `mapBlockIndex` while an orphan waits for
this block. -/
def Quiet (block : CBlock) (s : BlockStore) : Prop :=
  ∀ x ∈ processCalls P K env block s, indexesAndRefuses P K env x = true → x.2.awaits P x.1 = false

end Calls

section Call

variable {P : Params} {K : KernelHash} {env : BlockEnv} {b : CBlock} {n : Node} {s : BlockStore}

/-- An entry of `mapBlockIndex` after the call was there before, or is that of the block. -/
theorem isSome_of_accepting {hash : Uint256}
    (h : ((accepting P K env b s).2.mapBlockIndex.lookup hash).isSome) :
    (s.node.mapBlockIndex.lookup hash).isSome ∨ hash = b.getHash P := by
  have hgrown : GrownBy P b s.node.toGlobals (accepting P K env b s).2.toGlobals :=
    (acceptBlock_grows (env.hosts b).2 b s.node).snd
  exact hgrown.isSome_or h

/-- A stored orphan waits for its parent. -/
theorem BlockStore.awaits_of_stored {b' : CBlock} (hb : s.Stored P b') (hprev : b'.hashPrevBlock = b.getHash P) :
    s.awaits P b = true :=
  List.any_eq_true.mpr ⟨⟨b'.getHash P, b'⟩, AList.mem_lookup_iff.mp hb, by simpa using hprev⟩

namespace BlockStore

/-- What accepting a block does to the node. -/
@[simp] theorem indexed_node : (s.indexed P K b n).node = n := by
  unfold indexed
  split_ifs <;> rfl

/-- The orphans are left alone. -/
@[simp] theorem indexed_mapOrphanBlocks : (s.indexed P K b n).mapOrphanBlocks = s.mapOrphanBlocks := by
  unfold indexed
  split_ifs <;> rfl

/-- And so is the map by parent. -/
@[simp] theorem indexed_mapOrphanBlocksByPrev :
    (s.indexed P K b n).mapOrphanBlocksByPrev = s.mapOrphanBlocksByPrev := by
  unfold indexed
  split_ifs <;> rfl

/-- And the stakes of the orphans. -/
@[simp] theorem indexed_setStakeSeenOrphan :
    (s.indexed P K b n).setStakeSeenOrphan = s.setStakeSeenOrphan := by
  unfold indexed
  split_ifs <;> rfl

/-- So the same orphans are stored. -/
theorem stored_indexed (b' : CBlock) : (s.indexed P K b n).Stored P b' ↔ s.Stored P b' := by
  unfold Stored
  rw [indexed_mapOrphanBlocks]

end BlockStore

end Call

section Loop

variable {P : Params} {K : KernelHash} {env : BlockEnv} {b : CBlock} {s₁ s : BlockStore}
  {hashPrev : Uint256} {q : List Uint256} {L : List (Uint256 × CBlock)} {Calm Fresh : Prop}

/-- The resolving loop between two rounds, with `q` left in the work queue. What depends on the condition
that a call is quiet is asked for when `Calm` holds, and the proofs-of-stake when `Fresh` does. -/
structure BetweenRounds (P : Params) (Calm Fresh : Prop) (s : BlockStore) (q : List Uint256) : Prop where
  held : s.Held P
  waiting : Calm → ∀ e ∈ s.mapOrphanBlocksByPrev, (s.node.mapBlockIndex.lookup e.1).isSome → e.1 ∈ q
  stakes : Fresh → s.StakesShown P

/-- The resolving loop inside the round of `hashPrev` that began at `s₁`, with the orphans `L` left. -/
structure InRound (P : Params) (Calm Fresh : Prop) (s₁ s : BlockStore) (hashPrev : Uint256)
    (L : List (Uint256 × CBlock)) (q : List Uint256) : Prop where
  byPrev : s.mapOrphanBlocksByPrev = s₁.mapOrphanBlocksByPrev
  keyed : ∀ hash b, s.mapOrphanBlocks.lookup hash = some b → b.getHash P = hash
  left : ∀ b, s.Stored P b ↔ s₁.Stored P b ∧ (b.hashPrevBlock = hashPrev → (hashPrev, b) ∈ L)
  waiting : Calm → ∀ e ∈ s.mapOrphanBlocksByPrev, (s.node.mapBlockIndex.lookup e.1).isSome →
    e.1 ∈ hashPrev :: q
  stakes : Fresh → s.StakesShown P

/-- A round begins with all the orphans of one parent. -/
theorem BetweenRounds.start (h : BetweenRounds P Calm Fresh s (hashPrev :: q)) :
    InRound P Calm Fresh s s hashPrev (s.mapOrphanBlocksByPrev.filter (fun e => e.1 = hashPrev)) q where
  byPrev := rfl
  keyed := h.held.keyed
  left := by
    intro b
    refine ⟨fun hb => ⟨hb, fun hprev => ?_⟩, fun hb => hb.1⟩
    refine List.mem_filter.mpr ⟨?_, by simp⟩
    rw [← hprev]
    exact (h.held.stored_iff b).mp hb
  waiting := h.waiting
  stakes := h.stakes

/-- At the end of a round the whole range of `hashPrev` is erased. -/
theorem InRound.finish (hheld₁ : s₁.Held P) (h : InRound P Calm Fresh s₁ s hashPrev [] q) :
    BetweenRounds P Calm Fresh (s.eraseRange hashPrev) q where
  held := by
    constructor
    · exact h.keyed
    · intro e he
      have hmem := (List.mem_filter.mp he).1
      rw [h.byPrev] at hmem
      exact hheld₁.byPrev_keyed e hmem
    · intro b
      refine (h.left b).trans ?_
      rw [hheld₁.stored_iff, BlockStore.eraseRange, List.mem_filter, h.byPrev]
      simp
    · rw [BlockStore.eraseRange, h.byPrev]
      exact hheld₁.nodup.filter _
  waiting := by
    intro hcalm e he hsome
    obtain ⟨hmem, hne⟩ := List.mem_filter.mp he
    -- what waits for `hashPrev` is in the range that goes
    rcases List.mem_cons.mp (h.waiting hcalm e hmem hsome) with heq | hq
    · exact absurd heq (by simpa using hne)
    · exact hq
  stakes := fun hs => (h.stakes hs).congr rfl rfl

/-- One orphan of a round is tried, and leaves. Its hash is in the new queue `q'`, or no orphan waits for
it, or it is not a new entry of `mapBlockIndex`. -/
theorem InRound.step (h : InRound P Calm Fresh s₁ s hashPrev ((hashPrev, b) :: L) q)
    (hheld₁ : s₁.Held P) (hnodup : ((hashPrev, b) :: L).Nodup) (hb₁ : s₁.Stored P b)
    (hprev : b.hashPrevBlock = hashPrev) {q' : List Uint256} (hq : ∀ hash ∈ q, hash ∈ q')
    (hnew : Calm → s.node.mapBlockIndex.lookup (b.getHash P) = none →
      ((accepting P K env b s).2.mapBlockIndex.lookup (b.getHash P)).isSome →
        b.getHash P ∈ q' ∨ s.awaits P b = false) :
    InRound P Calm Fresh s₁ ((s.indexed P K b (accepting P K env b s).2).dropOrphan P b) hashPrev L q' := by
  have hstored : (s.indexed P K b (accepting P K env b s).2).Stored P b :=
    (BlockStore.stored_indexed b).mpr ((h.left b).mpr ⟨hb₁, fun _ => List.mem_cons_self⟩)
  obtain ⟨hnotin, -⟩ := List.nodup_cons.mp hnodup
  constructor
  · exact BlockStore.indexed_mapOrphanBlocksByPrev.trans h.byPrev
  · intro hash b' hlookup
    rw [BlockStore.lookup_dropOrphan, BlockStore.indexed_mapOrphanBlocks] at hlookup
    split_ifs at hlookup
    exact h.keyed hash b' hlookup
  · -- what is stored after the step
    intro b'
    rw [BlockStore.stored_dropOrphan hstored, BlockStore.stored_indexed]
    refine (and_congr (h.left b') Iff.rfl).trans ⟨?_, ?_⟩
    · rintro ⟨⟨hb', hin⟩, hne⟩
      refine ⟨hb', fun hprev' => ?_⟩
      rcases List.mem_cons.mp (hin hprev') with heq | htail
      · exact absurd (congrArg Prod.snd heq) hne
      · exact htail
    · rintro ⟨hb', hin⟩
      refine ⟨⟨hb', fun hprev' => List.mem_cons_of_mem _ (hin hprev')⟩, ?_⟩
      rintro rfl
      exact hnotin (hin hprev)
  · -- an orphan whose parent is known is in the round or in the queue
    intro hcalm e he hsome
    change e ∈ (s.indexed P K b (accepting P K env b s).2).mapOrphanBlocksByPrev at he
    rw [BlockStore.indexed_mapOrphanBlocksByPrev] at he
    change ((s.indexed P K b (accepting P K env b s).2).node.mapBlockIndex.lookup e.1).isSome at hsome
    rw [BlockStore.indexed_node] at hsome
    -- its parent was known before, or is the block of this step
    by_cases hold : (s.node.mapBlockIndex.lookup e.1).isSome
    · rcases List.mem_cons.mp (h.waiting hcalm e he hold) with heq | hmem
      · exact heq ▸ List.mem_cons_self
      · exact List.mem_cons_of_mem _ (hq _ hmem)
    have hhash : e.1 = b.getHash P := (isSome_of_accepting hsome).resolve_left hold
    rw [hhash] at hsome hold
    rcases hnew hcalm (by simpa using hold) hsome with hmem | hawaits
    · rw [hhash]
      exact List.mem_cons_of_mem _ hmem
    by_cases hrange : e.1 = hashPrev
    · rw [hrange]
      exact List.mem_cons_self
    -- outside the range of the round `e` is still stored, and it waits for the block
    have hmem₁ : e ∈ s₁.mapOrphanBlocksByPrev := h.byPrev ▸ he
    have hkey := hheld₁.byPrev_keyed e hmem₁
    have hstored' : s.Stored P e.2 :=
      (h.left e.2).mpr ⟨hheld₁.stored_of_mem hmem₁, fun hprev' => absurd (hkey.trans hprev') hrange⟩
    rw [BlockStore.awaits_of_stored hstored' (hkey.symm.trans hhash)] at hawaits
    cases hawaits
  · -- the stakes that are shown
    intro hs
    have hshown : (s.indexed P K b (accepting P K env b s).2).StakesShown P :=
      (h.stakes hs).congr BlockStore.indexed_mapOrphanBlocks BlockStore.indexed_setStakeSeenOrphan
    exact hshown.dropOrphan hstored

/-- What `AcceptBlock` says of an orphan decides whether its hash joins the queue. -/
theorem acceptOrphan_eq (hret : callReturns P K env (b, s) = true) :
    acceptOrphan P K env q b s =
      (.ok (if (accepting P K env b s).1.isOk then q ++ [b.getHash P] else q),
        (s.indexed P K b (accepting P K env b s).2).dropOrphan P b) := by
  unfold acceptOrphan acceptBlockSeen
  cases hr : (accepting P K env b s).1 with
  | ok u => rfl
  | error e =>
    have hreturn : e.isReturn = true := by
      simpa only [callReturns, hr] using hret
    simp only [hreturn, if_true]
    rfl

/-- The orphans of a round. -/
theorem InRound.acceptOrphans (hreturns : ∀ x ∈ orphanCalls P K env L q s, callReturns P K env x = true)
    (hquiet : Calm → ∀ x ∈ orphanCalls P K env L q s, indexesAndRefuses P K env x = true →
      x.2.awaits P x.1 = false)
    (hheld₁ : s₁.Held P) (hL : ∀ e ∈ L, e ∈ s₁.mapOrphanBlocksByPrev ∧ e.1 = hashPrev) (hnodup : L.Nodup)
    (h : InRound P Calm Fresh s₁ s hashPrev L q) :
    ∃ q' s', Peershares.acceptOrphans P K env L q s = (.ok q', s') ∧
      InRound P Calm Fresh s₁ s' hashPrev [] q' ∧ q'.length ≤ q.length + L.length := by
  induction L generalizing s q with
  | nil => exact ⟨q, s, rfl, h, le_refl _⟩
  | cons e L ih =>
    -- the induction is on the orphans of the parent; `InRound` has what is left of them
    obtain ⟨hash, b⟩ := e
    obtain ⟨⟨hmem, rfl⟩, hrest⟩ := List.forall_mem_cons.mp hL
    have hprev : b.hashPrevBlock = hash := (hheld₁.byPrev_keyed _ hmem).symm
    obtain ⟨hret, hreturns⟩ := List.forall_mem_cons.mp hreturns
    have heq := acceptOrphan_eq (q := q) hret
    have hstep : InRound P Calm Fresh s₁ ((s.indexed P K b (accepting P K env b s).2).dropOrphan P b) hash L
        (if (accepting P K env b s).1.isOk then q ++ [b.getHash P] else q) := by
      refine h.step hheld₁ hnodup (hheld₁.stored_of_mem hmem) hprev ?_ ?_
      · intro x hx
        split_ifs
        · exact List.mem_append_left _ hx
        · exact hx
      · intro hcalm hnone hsome
        cases hok : (accepting P K env b s).1.isOk with
        -- accepted: its children are waited for in the queue
        | true => exact .inl (by simp)
        -- refused: its children stay, if there are any
        | false =>
          refine .inr ((List.forall_mem_cons.mp (hquiet hcalm)).1 ?_)
          simp [indexesAndRefuses, hok, hnone, hsome]
    have hlater : Calm → ∀ x ∈ orphanCalls P K env L
        (if (accepting P K env b s).1.isOk then q ++ [b.getHash P] else q)
        ((s.indexed P K b (accepting P K env b s).2).dropOrphan P b),
          indexesAndRefuses P K env x = true → x.2.awaits P x.1 = false := by
      intro hcalm
      have hcalls := (List.forall_mem_cons.mp (hquiet hcalm)).2
      simpa only [heq] using hcalls
    simp only [heq] at hreturns
    obtain ⟨q', s', hrun, hround, hlen⟩ := ih hreturns hlater hrest (List.nodup_cons.mp hnodup).2 hstep
    refine ⟨q', s', (bind_of_ok heq).trans hrun, hround, hlen.trans ?_⟩
    have hone : (if (accepting P K env b s).1.isOk then q ++ [b.getHash P] else q).length ≤ q.length + 1 := by
      split_ifs <;> simp
    rw [List.length_cons]
    omega

/-- **The resolving loop** comes to the end of the work queue. -/
theorem BetweenRounds.resolveBlocks (nRounds : ℕ)
    (hreturns : ∀ x ∈ resolveCalls P K env nRounds q s, callReturns P K env x = true)
    (hquiet : Calm → ∀ x ∈ resolveCalls P K env nRounds q s, indexesAndRefuses P K env x = true →
      x.2.awaits P x.1 = false)
    (h : BetweenRounds P Calm Fresh s q) (hrounds : q.length + s.mapOrphanBlocksByPrev.length ≤ nRounds) :
    ∃ s', Peershares.resolveBlocks P K env nRounds q s = (.ok (), s') ∧ BetweenRounds P Calm Fresh s' [] := by
  induction nRounds generalizing s q with
  | zero =>
    cases q with
    | nil => exact ⟨s, rfl, h⟩
    | cons hashPrev q => simp at hrounds
  | succ nRounds ih =>
    cases q with
    | nil => exact ⟨s, rfl, h⟩
    | cons hashPrev q =>
      have hround : ∀ e ∈ s.mapOrphanBlocksByPrev.filter (fun e => e.1 = hashPrev),
          e ∈ s.mapOrphanBlocksByPrev ∧ e.1 = hashPrev := by
        intro e he
        obtain ⟨hmem, hkey⟩ := List.mem_filter.mp he
        exact ⟨hmem, by simpa using hkey⟩
      -- one round of the queue
      obtain ⟨hreturns, hlater⟩ := List.forall_mem_append.mp hreturns
      obtain ⟨q', s', hrun, hdone, hlen⟩ := h.start.acceptOrphans hreturns
        (fun hcalm => (List.forall_mem_append.mp (hquiet hcalm)).1) h.held hround (h.held.nodup.filter _)
      simp only [hrun] at hlater
      -- what the queue gains, the multimap loses
      have hsplit := List.length_eq_length_filter_add (l := s.mapOrphanBlocksByPrev)
        (fun e => decide (e.1 = hashPrev))
      have hfilter : ((s'.eraseRange hashPrev).mapOrphanBlocksByPrev).length =
          (s.mapOrphanBlocksByPrev.filter (fun e => !decide (e.1 = hashPrev))).length := by
        rw [BlockStore.eraseRange, hdone.byPrev]
        congr 1
        refine List.filter_congr (fun e _ => ?_)
        simp
      rw [List.length_cons] at hrounds
      -- and the rest of it
      obtain ⟨s'', hrest, hend⟩ := ih hlater
        (fun hcalm => by
          have hcalls := (List.forall_mem_append.mp (hquiet hcalm)).2
          simpa only [hrun] using hcalls)
        (hdone.finish h.held) (by omega)
      refine ⟨s'', ?_, hend⟩
      calc Peershares.resolveBlocks P K env (nRounds + 1) (hashPrev :: q) s
          = Peershares.resolveBlocks P K env nRounds q' (s'.eraseRange hashPrev) := bind_of_ok hrun
        _ = (.ok (), s'') := hrest

end Loop

/-! ### `ProcessBlock` -/

/-- The block would be stored as an orphan although an orphan has its proof-of-stake: another orphan or
the pending checkpoint wants it. -/
def doublesStake (P : Params) (block : CBlock) (s : BlockStore) : Bool :=
  (s.node.mapBlockIndex.lookup block.hashPrevBlock).isNone
    && block.isProofOfStake && decide (block.getProofOfStake ∈ s.setStakeSeenOrphan)
    && (s.hasChild (block.getHash P) || s.wantedByPendingSyncCheckpoint (block.getHash P))

/-- No orphan is stored with a proof-of-stake that an orphan has. -/
def Undoubled (P : Params) (K : KernelHash) (env : BlockEnv) (block : CBlock) (s : BlockStore) : Prop :=
  (checkArriving P K env block s).1.isOk = true →
    doublesStake P block (checkArriving P K env block s).2 = false

section ProcessBlock

variable {P : Params} {K : KernelHash} {env : BlockEnv} {block : CBlock} {s s' : BlockStore}

/-- What a call keeps, under the conditions that each part needs. -/
structure Kept (P : Params) (Calm Fresh : Prop) (s' : BlockStore) : Prop where
  held : s'.Held P
  noneKnown : Calm → s'.NoneKnown
  stakes : Fresh → s'.StakesShown P

/-- When the work queue is empty the call is over. -/
theorem BetweenRounds.kept {Calm Fresh : Prop} (h : BetweenRounds P Calm Fresh s []) :
    Kept P Calm Fresh s := by
  refine ⟨h.held, fun hcalm x hx => ?_, h.stakes⟩
  by_contra hsome
  exact absurd (h.waiting hcalm x hx (Option.isSome_iff_ne_none.mpr hsome)) (by simp)

/-- The checks change `mapProofOfStake` only. -/
theorem checkArriving_snd (P : Params) (K : KernelHash) (env : BlockEnv) (block : CBlock) (s : BlockStore) :
    ∃ mapProofOfStake, (checkArriving P K env block s).2 = { s with mapProofOfStake } := by
  have hput : ∀ hash, ∃ mapProofOfStake, s.putProofOfStake P block hash = { s with mapProofOfStake } := by
    intro hash
    unfold BlockStore.putProofOfStake
    split
    · exact ⟨s.mapProofOfStake, rfl⟩
    · split_ifs
      · exact ⟨s.mapProofOfStake, rfl⟩
      · exact ⟨_, rfl⟩
  refine Triple.snd (I := fun s' => ∃ mapProofOfStake, s' = { s with mapProofOfStake }) ?_
  refine Triple.get_bind (Triple.lift_bind (fun _ _ => ?_) (fun _ _ => ⟨s.mapProofOfStake, rfl⟩))
  refine Triple.lift_bind (fun hash _ => ?_) (fun _ _ => ⟨s.mapProofOfStake, rfl⟩)
  refine Triple.modify_bind ?_
  unfold Triple Command.lift
  cases require (s.hasEnoughWork P block) 0 "ProcessBlock() : block with too little %s" with
  | ok u => exact hput hash
  | error e => exact hput hash

/-- A block that passes the checks is not an orphan yet. -/
theorem lookup_none_of_checkArriving (h : (checkArriving P K env block s).1 = .ok ()) :
    s.mapOrphanBlocks.lookup (block.getHash P) = none := by
  have hrun : checkArriving P K env block s = (.ok (), (checkArriving P K env block s).2) := Prod.ext h rfl
  obtain ⟨s₀, s₁, hget, hrun⟩ := bind_eq_ok.mp hrun
  cases hget
  obtain ⟨u, s₁, hchecks, -⟩ := bind_eq_ok.mp hrun
  have hchecks : s.preliminaryChecks P env block = .ok u := congrArg Prod.fst hchecks
  simp only [BlockStore.preliminaryChecks, Result.bind_eq_ok, require_eq_ok] at hchecks
  obtain ⟨-, -, -, horphan, -⟩ := hchecks
  exact Option.isNone_iff_eq_none.mp horphan

/-- A block without a known parent is stored, or refused. -/
theorem storeOrphan_kept {Calm Fresh : Prop} (hheld : s.Held P)
    (hnew : s.mapOrphanBlocks.lookup (block.getHash P) = none)
    (hprev : s.node.mapBlockIndex.lookup block.hashPrevBlock = none) (hnone : Calm → s.NoneKnown)
    (hshown : Fresh → s.StakesShown P)
    (hundoubled : Fresh → doublesStake P block s = false) :
    Kept P Calm Fresh (storeOrphan P block s).2 := by
  refine Triple.snd (I := Kept P Calm Fresh) ?_
  refine Triple.get_bind (Triple.lift_bind (fun _ hstake => ?_) (fun _ _ => ⟨hheld, hnone, hshown⟩))
  have haccept : s.refusesStake P s.setStakeSeenOrphan block = false := by
    simpa using require_eq_ok.mp hstake
  refine ⟨hheld.putOrphan hnew, fun hcalm => (hnone hcalm).putOrphan hprev, fun hfresh => ?_⟩
  refine (hshown hfresh).putOrphan hnew (fun hpos hmem => ?_)
  -- the set has the value, so the block was let in for what wants it
  have hdoubles := hundoubled hfresh
  simp only [doublesStake, hprev, Option.isNone_none, hpos, decide_eq_true hmem, Bool.and_self,
    Bool.true_and, Bool.or_eq_false_iff] at hdoubles
  rw [BlockStore.refusesStake, hpos, hdoubles.1, hdoubles.2, decide_eq_true hmem] at haccept
  cases haccept

/-- A block whose parent is known: `AcceptBlock`, and the resolving loop when it succeeds. -/
theorem acceptAndResolve_kept {Calm Fresh : Prop} (hheld : s.Held P)
    (hparent : ¬ (s.node.mapBlockIndex.lookup block.hashPrevBlock).isNone = true)
    (hreturns : ∀ x ∈ storeCalls P K env block s, callReturns P K env x = true)
    (hquiet : Calm → ∀ x ∈ storeCalls P K env block s, indexesAndRefuses P K env x = true →
      x.2.awaits P x.1 = false) (hnone : Calm → s.NoneKnown) (hshown : Fresh → s.StakesShown P) :
    Kept P Calm Fresh (storeBlock P K env block s).2 := by
  have hindexed : (s.indexed P K block (accepting P K env block s).2).Held P :=
    hheld.congr BlockStore.indexed_mapOrphanBlocks BlockStore.indexed_mapOrphanBlocksByPrev
  have hstakes : Fresh → (s.indexed P K block (accepting P K env block s).2).StakesShown P := fun hfresh =>
    (hshown hfresh).congr BlockStore.indexed_mapOrphanBlocks BlockStore.indexed_setStakeSeenOrphan
  -- an orphan whose parent is known now waits for the block
  have hwaits : Calm → ∀ x ∈ s.mapOrphanBlocksByPrev,
      ((accepting P K env block s).2.mapBlockIndex.lookup x.1).isSome → x.1 = block.getHash P := by
    intro hcalm x hx hsome
    refine (isSome_of_accepting hsome).resolve_left ?_
    rw [hnone hcalm x hx]
    simp
  -- the calls of this call: the block itself, and what its work queue comes to
  unfold storeCalls at hreturns hquiet
  rw [if_neg hparent] at hreturns hquiet
  obtain ⟨hret, hreturns⟩ := List.forall_mem_cons.mp hreturns
  have hstore : storeBlock P K env block s =
      ((acceptBlockSeen P K env block).onFailure Failure.isReturn id
        (.error 0 "ProcessBlock() : AcceptBlock FAILED") >>= fun _ =>
          resolveBlocks P K env (s.mapOrphanBlocksByPrev.length + 1) [block.getHash P]) s := by
    change (if _ then _ else _ : Command BlockStore Failure Unit) s = _
    rw [if_neg hparent]
  rw [hstore]
  -- `AcceptBlock` refuses the block, or takes it
  cases hr : (accepting P K env block s).1 with
  | error e =>
    have hreturn : e.isReturn = true := by
      simpa only [callReturns, hr] using hret
    have herr : (acceptBlockSeen P K env block).onFailure Failure.isReturn id
        (.error 0 "ProcessBlock() : AcceptBlock FAILED") s =
          (.error (.error 0 "ProcessBlock() : AcceptBlock FAILED"),
            s.indexed P K block (accepting P K env block s).2) := by
      unfold Command.onFailure acceptBlockSeen
      simp only [hr, hreturn, if_true, id]
    rw [bind_of_error herr]
    -- a refused block that is indexed all the same has no orphans waiting
    refine ⟨hindexed, fun hcalm x hx => ?_, hstakes⟩
    rw [BlockStore.indexed_mapOrphanBlocksByPrev] at hx
    rw [BlockStore.indexed_node]
    by_contra hsome
    have hsome := Option.isSome_iff_ne_none.mpr hsome
    have hhash := hwaits hcalm x hx hsome
    have hawaits := (List.forall_mem_cons.mp (hquiet hcalm)).1 (by
      have hbefore := hnone hcalm x hx
      rw [hhash] at hbefore hsome
      simp [indexesAndRefuses, hr, hbefore, hsome, Except.isOk, Except.toBool])
    rw [BlockStore.awaits_of_stored (hheld.stored_of_mem hx)
      ((hheld.byPrev_keyed x hx).symm.trans hhash)] at hawaits
    cases hawaits
  | ok u =>
    have hcall : acceptBlockSeen P K env block s =
        (.ok (), s.indexed P K block (accepting P K env block s).2) := by
      unfold acceptBlockSeen
      rw [hr]
    have hok : (acceptBlockSeen P K env block).onFailure Failure.isReturn id
        (.error 0 "ProcessBlock() : AcceptBlock FAILED") s =
          (.ok (), s.indexed P K block (accepting P K env block s).2) := by
      unfold Command.onFailure
      rw [hcall]
    simp only [hcall] at hreturns
    -- the queue begins with the block, for which all such orphans wait
    have hstart : BetweenRounds P Calm Fresh (s.indexed P K block (accepting P K env block s).2)
        [block.getHash P] := by
      refine ⟨hindexed, fun hcalm x hx hsome => ?_, hstakes⟩
      rw [BlockStore.indexed_mapOrphanBlocksByPrev] at hx
      rw [BlockStore.indexed_node] at hsome
      exact List.mem_singleton.mpr (hwaits hcalm x hx hsome)
    -- and is worked off
    obtain ⟨s', hrun, hend⟩ := hstart.resolveBlocks _ hreturns
      (fun hcalm => by
        have hcalls := (List.forall_mem_cons.mp (hquiet hcalm)).2
        simpa only [hcall] using hcalls)
      (by rw [List.length_singleton, BlockStore.indexed_mapOrphanBlocksByPrev, Nat.add_comm])
    rw [bind_of_ok hok, hrun]
    exact hend.kept

/-- **One call of `ProcessBlock`**, whichever way it ends. -/
theorem processBlock_kept (hreturns : Returns P K env block s) (hheld : s.Held P) :
    Kept P (Quiet P K env block s ∧ s.NoneKnown) (Undoubled P K env block s ∧ s.StakesShown P)
      (processBlock P K env block s).2 := by
  -- the checks write `mapProofOfStake` and nothing else
  obtain ⟨mapProofOfStake, hsnd⟩ := checkArriving_snd P K env block s
  have hheld' : ({ s with mapProofOfStake } : BlockStore).Held P := hheld.congr rfl rfl
  cases hr : (checkArriving P K env block s).1 with
  | error e =>
    have hrun : checkArriving P K env block s = (.error e, { s with mapProofOfStake }) := Prod.ext hr hsnd
    have heq : processBlock P K env block s = (.error e, { s with mapProofOfStake }) := bind_of_error hrun
    rw [heq]
    exact ⟨hheld', fun hcalm => hcalm.2, fun hfresh => hfresh.2.congr rfl rfl⟩
  | ok u =>
    have hrun : checkArriving P K env block s = (.ok (), { s with mapProofOfStake }) := Prod.ext hr hsnd
    have heq : processBlock P K env block s = storeBlock P K env block { s with mapProofOfStake } :=
      bind_of_ok hrun
    have hcalls : processCalls P K env block s = storeCalls P K env block { s with mapProofOfStake } := by
      unfold processCalls
      rw [hrun]
    rw [heq]
    -- the block is parked or accepted
    by_cases hparent : (s.node.mapBlockIndex.lookup block.hashPrevBlock).isNone = true
    · have hstore : storeBlock P K env block { s with mapProofOfStake } =
          storeOrphan P block { s with mapProofOfStake } := by
        change (if _ then _ else _ : Command BlockStore Failure Unit) _ = _
        rw [if_pos hparent]
      rw [hstore]
      have hnew : s.mapOrphanBlocks.lookup (block.getHash P) = none := lookup_none_of_checkArriving hr
      refine storeOrphan_kept hheld' hnew (Option.isNone_iff_eq_none.mp hparent) (fun hcalm => hcalm.2)
        (fun hfresh => hfresh.2.congr rfl rfl) (fun hfresh => ?_)
      -- the checks have passed, so a proof that is in the set rules the call out
      have hundoubled := hfresh.1
      unfold Undoubled at hundoubled
      rw [hrun] at hundoubled
      exact hundoubled rfl
    · unfold Returns at hreturns
      unfold Quiet
      rw [hcalls] at hreturns ⊢
      exact acceptAndResolve_kept hheld' hparent hreturns (fun hcalm => hcalm.1) (fun hcalm => hcalm.2)
        (fun hfresh => hfresh.2.congr rfl rfl)

end ProcessBlock

/-! ### Runs -/

/-- A block arrives as `Met` allows, or the node changes without a new block in its tree. -/
inductive BlockStep (P : Params) (K : KernelHash) (Met : BlockEnv → CBlock → BlockStore → Prop) :
    BlockStore → BlockStore → Prop
  | processBlock {s : BlockStore} {env : BlockEnv} {block : CBlock} (hmet : Met env block s) :
      BlockStep P K Met s (processBlock P K env block s).2
  | other {s : BlockStore} {n' : Node} (hsame : n'.mapBlockIndex = s.node.mapBlockIndex) :
      BlockStep P K Met s { s with node := n' }

/-- The states that are reached from one without orphans. -/
inductive BlockRun (P : Params) (K : KernelHash) (Met : BlockEnv → CBlock → BlockStore → Prop) :
    BlockStore → Prop
  | start {s : BlockStore} (hempty : s.NoOrphans) : BlockRun P K Met s
  | step {s s' : BlockStore} (h : BlockRun P K Met s) (hstep : BlockStep P K Met s s') :
      BlockRun P K Met s'

section Runs

variable {P : Params} {K : KernelHash} {s : BlockStore}

/-- The maps of orphans agree in every state of a run whose calls return. -/
theorem BlockRun.held {Met : BlockEnv → CBlock → BlockStore → Prop}
    (hmet : ∀ env block s, Met env block s → Returns P K env block s) (h : BlockRun P K Met s) :
    s.Held P := by
  induction h with
  | start hempty => exact hempty.held
  | step _ hstep ih =>
    cases hstep with
    | processBlock hm => exact (processBlock_kept (hmet _ _ _ hm) ih).held
    | other hsame => exact ih.congr rfl rfl

/-- **The store of orphan blocks.** In every run in which no call of `AcceptBlock` throws, and none
indexes and then refuses a block that an orphan waits for, the two maps hold the same blocks, and no
orphan has its parent in `mapBlockIndex`. -/
theorem BlockRun.noneKnown
    (h : BlockRun P K (fun env block s => Returns P K env block s ∧ Quiet P K env block s) s) :
    s.Held P ∧ s.NoneKnown := by
  have hheld := h.held (fun _ _ _ hm => hm.1)
  refine ⟨hheld, ?_⟩
  induction h with
  | start hempty => exact hempty.none_known
  | step hrun hstep ih =>
    have hbefore := hrun.held (fun _ _ _ hm => hm.1)
    cases hstep with
    | processBlock hm => exact (processBlock_kept hm.1 hbefore).noneKnown ⟨hm.2, ih hbefore⟩
    | other hsame =>
      intro e he
      rw [hsame]
      exact ih hbefore e he

/-- **The proofs-of-stake of the orphans.** In every run in which no call of `AcceptBlock` throws, and
no orphan is stored with a proof-of-stake that an orphan has, `setStakeSeenOrphan` has those of the
orphans and no others. -/
theorem BlockRun.stakesShown
    (h : BlockRun P K (fun env block s => Returns P K env block s ∧ Undoubled P K env block s) s)
    (x : COutPoint × ℕ) :
    x ∈ s.setStakeSeenOrphan ↔ ∃ hash b, s.mapOrphanBlocks.lookup hash = some b ∧
      b.isProofOfStake = true ∧ b.getProofOfStake = x := by
  have hheld := h.held (fun _ _ _ hm => hm.1)
  -- by induction on the run; what `Held` says is needed before each step
  have hshown : s.StakesShown P := by
    induction h with
    | start hempty => exact hempty.stakes_shown
    | step hrun hstep ih =>
      have hbefore := hrun.held (fun _ _ _ hm => hm.1)
      cases hstep with
      | processBlock hm => exact (processBlock_kept hm.1 hbefore).stakes ⟨hm.2, ih hbefore⟩
      | other hsame => exact (ih hbefore).congr rfl rfl
  rw [hshown.mem_iff]
  constructor
  · rintro ⟨b, hb, hpos, heq⟩
    exact ⟨b.getHash P, b, hb, hpos, heq⟩
  · rintro ⟨hash, b, hb, hpos, heq⟩
    refine ⟨b, ?_, hpos, heq⟩
    unfold BlockStore.Stored
    rw [hheld.keyed hash b hb]
    exact hb

end Runs

/-! ### A refused parent -/

namespace Sample

/-- Hashes of the kernel. Every kernel meets its target. -/
def kernelHash : KernelHash where
  hashSelection hashProof nStakeModifierPrev := hashProof + nStakeModifierPrev
  hashKernel _ := 0
  hashChecksum _ nFlags hashProofOfStake nStakeModifier := nFlags + hashProofOfStake + nStakeModifier

def arrivalEnv : BlockEnv where
  nAdjustedTime := 2000000000
  hosts := fun _ => (host, host)

/-- A node that knows only genesis. -/
def genesisStore (P : Params) : BlockStore := (loadGenesisStore P kernelHash host { node := {} }).2

/-- A node with its genesis block only. -/
theorem genesisStore_noOrphans (P : Params) : (genesisStore P).NoOrphans where
  mapOrphanBlocks := BlockStore.indexed_mapOrphanBlocks
  byPrev := BlockStore.indexed_mapOrphanBlocksByPrev
  stakes := BlockStore.indexed_setStakeSeenOrphan

/-- A block on genesis that has a transaction without its input: it is indexed but not connected. -/
def refusedBlock : CBlock := blockOn [params.genesisIndex] 4 [coinBase 4, spendMissing]

/-- A block on the one that is refused. -/
def childBlock : CBlock :=
  { blockOn [params.genesisIndex] 5 [coinBase 5] with hashPrevBlock := hashAt 4 }

/-- The child arrives before its parent. -/
def childFirst : BlockStore :=
  (processBlock params kernelHash arrivalEnv refusedBlock
    (processBlock params kernelHash arrivalEnv childBlock (genesisStore params)).2).2

end Sample

/-- The parent is refused after it was indexed, and the child goes on waiting for it. -/
theorem processBlock_knownParent :
    ¬ ∀ (P : Params) (K : KernelHash) (s : BlockStore), BlockRun P K (fun _ _ _ => True) s →
      s.Held P ∧ s.NoneKnown := by
  intro h
  obtain ⟨-, hnone⟩ := h Sample.params Sample.kernelHash Sample.childFirst
    (.step (.step (.start (Sample.genesisStore_noOrphans _)) (.processBlock trivial)) (.processBlock trivial))
  have heval : Sample.childFirst.mapOrphanBlocksByPrev.any
      (fun e => (Sample.childFirst.node.mapBlockIndex.lookup e.1).isSome) = true := by
    decide +kernel
  obtain ⟨e, he, hsome⟩ := List.any_eq_true.mp heval
  rw [hnone e he] at hsome
  cases hsome

/-! ### Two orphans with one proof-of-stake -/

namespace Sample

/-- The hash of a block tells blocks of one time apart. -/
def stakeParams : Params :=
  { params with hashHeader := fun _ _ _ nTime _ nNonce => nTime + 2 ^ 64 * nNonce }

/-- When the coin of block 1 is staked: more than a day after it was made. -/
def stakeTime : ℕ := params.nTimeGenesis + 100000

def stakeCoinBase : CTransaction where
  nTime := stakeTime
  vin := [⟨COutPoint.null, [1, 1], UINT_MAX⟩]
  vout := [CTxOut.empty]

/-- Stakes the coin of block 1. -/
def coinStake : CTransaction where
  nTime := stakeTime
  vin := [⟨⟨stakeParams.hashTx (coinBase 1), 0⟩, [], UINT_MAX⟩]
  vout := [CTxOut.empty, ⟨2000000, keyScript⟩]

/-- Blocks with this coinstake. -/
def stakeBlock (hashPrevBlock : Uint256) (nNonce : ℕ) : CBlock where
  hashPrevBlock := hashPrevBlock
  hashMerkleRoot := CBlock.merkleRoot stakeParams 2 ([stakeCoinBase, coinStake].map stakeParams.hashTx)
  nTime := stakeTime
  nBits := params.genesisIndex.nBits
  nNonce := nNonce
  vtx := [stakeCoinBase, coinStake]
  vchBlockSig := [1]

/-- A proof-of-work block `n` seconds after genesis, with nothing but a coinbase. -/
def workBlock (pprev : BlockPtr) (n : ℕ) : CBlock :=
  { blockOn pprev n [coinBase n] with nBits := getNextTargetRequired stakeParams pprev false }

def blockArrives (s : BlockStore) (block : CBlock) : BlockStore :=
  (processBlock stakeParams kernelHash arrivalEnv block s).2

/-- What a block with the coinstake shows as its proof-of-stake. -/
def stakeProof : COutPoint × ℕ := (⟨stakeParams.hashTx (coinBase 1), 0⟩, stakeTime)

/-- The sample stakes are one and the same. -/
theorem stakeBlock_shows (hashPrevBlock : Uint256) (nNonce : ℕ) :
    (stakeBlock hashPrevBlock nNonce).isProofOfStake = true ∧
      (stakeBlock hashPrevBlock nNonce).getProofOfStake = stakeProof :=
  ⟨rfl, rfl⟩

/-- Blocks 1, 2 and 3 of the main chain, with the chains below them. -/
def blockOne : CBlock := workBlock [stakeParams.genesisIndex] 1

def chainOne : BlockPtr :=
  [blockOne.newIndex stakeParams [stakeParams.genesisIndex] 1 0, stakeParams.genesisIndex]

def blockTwo : CBlock := workBlock chainOne 20

def chainTwo : BlockPtr := blockTwo.newIndex stakeParams chainOne 1 0 :: chainOne

def blockThree : CBlock := workBlock chainTwo 40

/-- A child of a block with this hash. -/
def stakeChild (hashPrevBlock : Uint256) : CBlock :=
  { workBlock [stakeParams.genesisIndex] 100020 with hashPrevBlock }

/-- Block 1 is there when a child of the second stake block comes; then come the two blocks with the
coinstake, and then block 2, on which the second one stands. -/
def doubledStake : BlockStore :=
  [blockOne, stakeChild ((stakeBlock (hashAt 20) 2).getHash stakeParams), stakeBlock (hashAt 50) 1,
    stakeBlock (hashAt 20) 2, blockTwo].foldl blockArrives (genesisStore stakeParams)

/-- Blocks that arrive one after the other are a run. -/
theorem run_blocksArrive (blocks : List CBlock) {s : BlockStore}
    (h : BlockRun stakeParams kernelHash (fun _ _ _ => True) s) :
    BlockRun stakeParams kernelHash (fun _ _ _ => True) (blocks.foldl blockArrives s) := by
  induction blocks generalizing s with
  | nil => exact h
  | cons block blocks ih => exact ih (.step h (.processBlock trivial))

end Sample

/-- The second orphan leaves and takes the proof-of-stake of the first with it. -/
theorem processBlock_forgetsStake :
    ¬ ∀ (P : Params) (K : KernelHash) (s : BlockStore), BlockRun P K (fun _ _ _ => True) s →
      ∀ x, x ∈ s.setStakeSeenOrphan ↔ ∃ hash b, s.mapOrphanBlocks.lookup hash = some b ∧
        b.isProofOfStake = true ∧ b.getProofOfStake = x := by
  intro h
  have hrun : BlockRun Sample.stakeParams Sample.kernelHash (fun _ _ _ => True) Sample.doubledStake :=
    Sample.run_blocksArrive _ (.start (Sample.genesisStore_noOrphans _))
  have heval : Sample.doubledStake.mapOrphanBlocks.lookup
        ((Sample.stakeBlock (Sample.hashAt 50) 1).getHash Sample.stakeParams) =
          some (Sample.stakeBlock (Sample.hashAt 50) 1) ∧
      Sample.stakeProof ∉ Sample.doubledStake.setStakeSeenOrphan := by
    decide +kernel
  obtain ⟨hstored, hforgotten⟩ := heval
  rw [h _ _ _ hrun Sample.stakeProof] at hforgotten
  exact hforgotten ⟨_, _, hstored, Sample.stakeBlock_shows (Sample.hashAt 50) 1⟩

namespace Sample

/-- The condition on an arriving block, for both properties. -/
def meets (block : CBlock) (s : BlockStore) : Bool :=
  (processCalls stakeParams kernelHash arrivalEnv block s).all (fun x =>
    callReturns stakeParams kernelHash arrivalEnv x
      && (!indexesAndRefuses stakeParams kernelHash arrivalEnv x || !x.2.awaits stakeParams x.1))
    && (!(checkArriving stakeParams kernelHash arrivalEnv block s).1.isOk
      || !doublesStake stakeParams block (checkArriving stakeParams kernelHash arrivalEnv block s).2)

/-- The conditions can be computed for the sample calls. -/
theorem met_of_meets {block : CBlock} {s : BlockStore} (h : meets block s = true) :
    Returns stakeParams kernelHash arrivalEnv block s ∧ Quiet stakeParams kernelHash arrivalEnv block s ∧
      Undoubled stakeParams kernelHash arrivalEnv block s := by
  unfold meets at h
  obtain ⟨hcalls, hdoubles⟩ := Bool.and_eq_true_iff.mp h
  have hcalls := List.all_eq_true.mp hcalls
  refine ⟨fun x hx => ?_, fun x hx hrefused => ?_, fun hok => ?_⟩
  · exact (Bool.and_eq_true_iff.mp (hcalls x hx)).1
  · have hquiet := (Bool.and_eq_true_iff.mp (hcalls x hx)).2
    rw [hrefused] at hquiet
    simpa using hquiet
  · rw [hok] at hdoubles
    simpa using hdoubles

/-- Each block of a row meets the condition when it arrives. -/
def allMeet : List CBlock → BlockStore → Bool
  | [], _ => true
  | block :: blocks, s => meets block s && allMeet blocks (blockArrives s block)

/-- And so for a row of them. -/
theorem run_allMeet {Met : BlockEnv → CBlock → BlockStore → Prop}
    (hmet : ∀ block s, meets block s = true → Met arrivalEnv block s) (blocks : List CBlock) {s : BlockStore}
    (h : BlockRun stakeParams kernelHash Met s) (hmeet : allMeet blocks s = true) :
    BlockRun stakeParams kernelHash Met (blocks.foldl blockArrives s) := by
  induction blocks generalizing s with
  | nil => exact h
  | cons block blocks ih =>
    obtain ⟨hfirst, hrest⟩ := Bool.and_eq_true_iff.mp hmeet
    exact ih (.step h (.processBlock (hmet block s hfirst))) hrest

/-- A stake block and block 3 wait; then block 2 comes and is accepted, and block 3 after it. -/
def blockAccepted : BlockStore :=
  [blockOne, stakeBlock (hashAt 50) 1, blockThree, blockTwo].foldl blockArrives
    (genesisStore stakeParams)

/-- The row that ends with an accepted block meets them. -/
theorem allMeet_blockAccepted :
    allMeet [blockOne, stakeBlock (hashAt 50) 1, blockThree, blockTwo]
      (genesisStore stakeParams) = true := by
  decide +kernel

/-- So it is a run of that kind. -/
theorem run_blockAccepted {Met : BlockEnv → CBlock → BlockStore → Prop}
    (hmet : ∀ block s, meets block s = true → Met arrivalEnv block s) :
    BlockRun stakeParams kernelHash Met blockAccepted :=
  run_allMeet hmet _ (.start (genesisStore_noOrphans _)) allMeet_blockAccepted

end Sample

/-- The stake block is still held, and its parent is not known. Block 3 has become the best. -/
theorem noneKnown_blockAccepted :
    Sample.blockAccepted.Held Sample.stakeParams ∧ Sample.blockAccepted.NoneKnown ∧
      Sample.blockAccepted.mapOrphanBlocksByPrev.length = 1 ∧
      Sample.blockAccepted.node.hashBestChain = Sample.hashAt 40 := by
  have hrun : BlockRun Sample.stakeParams Sample.kernelHash (fun env block s =>
      Returns Sample.stakeParams Sample.kernelHash env block s ∧
        Quiet Sample.stakeParams Sample.kernelHash env block s) Sample.blockAccepted :=
    Sample.run_blockAccepted (fun _ _ h => ⟨(Sample.met_of_meets h).1, (Sample.met_of_meets h).2.1⟩)
  exact ⟨hrun.noneKnown.1, hrun.noneKnown.2, by decide +kernel⟩

/-- The proof-of-stake of the orphan is there. -/
theorem stakesShown_blockAccepted :
    Sample.stakeProof ∈ Sample.blockAccepted.setStakeSeenOrphan := by
  have hlookup : Sample.blockAccepted.mapOrphanBlocks.lookup
      ((Sample.stakeBlock (Sample.hashAt 50) 1).getHash Sample.stakeParams) =
        some (Sample.stakeBlock (Sample.hashAt 50) 1) := by
    decide +kernel
  have hrun : BlockRun Sample.stakeParams Sample.kernelHash (fun env block s =>
      Returns Sample.stakeParams Sample.kernelHash env block s ∧
        Undoubled Sample.stakeParams Sample.kernelHash env block s) Sample.blockAccepted :=
    Sample.run_blockAccepted (fun _ _ h => ⟨(Sample.met_of_meets h).1, (Sample.met_of_meets h).2.2⟩)
  rw [hrun.stakesShown Sample.stakeProof]
  exact ⟨_, _, hlookup, Sample.stakeBlock_shows (Sample.hashAt 50) 1⟩

end Peershares
