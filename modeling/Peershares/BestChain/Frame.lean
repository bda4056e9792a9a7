import Peershares.BestChain.Checkpoint

/-!
# What chain selection leaves alone

`SetBestChain` and all it calls read the block tree and the block files but do not change them, and a
genesis block that is set stays (`Globals.Frame`). So a new entry of `mapBlockIndex` can only come from
`AddToBlockIndex`, and `AcceptBlock` adds its own block or nothing, whichever way it ends.

The functions are commands that keep what they have changed when they fail, so the frame is stated with
`Command.Keeps`, which covers both ways of ending. Each function has one lemma, and the lemma of a caller
is put together from those of its callees:

* `keeps_frame_reorganize`, `keeps_frame_setBestChainInner`, `keeps_frame_connectPostponed` — the parts of
  `SetBestChain`, with the rule of the loop for the postponed blocks
* `keeps_frame_setBestChain` — the frame of `SetBestChain`
* `keeps_frame_acceptPendingSyncCheckpoint` — the synchronized checkpoint, which may call `SetBestChain`
  a second time

`GrownBy` is the frame with one entry more. It is weaker on purpose: the entry may be there or not, since
`AcceptBlock` can fail before and after the block was inserted, and a throw after the insertion leaves it in
the tree.

* `addToBlockIndex_grows`, `acceptBlock_grows` — what they add to the tree
-/

open Framework Framework.Command

namespace Peershares

/-- The tree, the files and the genesis block are those of `g₀`. -/
structure Globals.Frame (g₀ g : Globals) : Prop where
  mapBlockIndex : g.mapBlockIndex = g₀.mapBlockIndex
  files : g.files = g₀.files
  pindexGenesisBlock : g₀.pindexGenesisBlock ≠ [] → g.pindexGenesisBlock = g₀.pindexGenesisBlock

/-- Nothing has changed yet. -/
theorem Globals.Frame.refl (g : Globals) : g.Frame g := ⟨rfl, rfl, fun _ => rfl⟩

/-- A node in the frame of `g₀`. -/
def InFrame (g₀ : Globals) (n : Node) : Prop := g₀.Frame n.toGlobals

section Frame

variable {P : Params} {H : Host} {g₀ : Globals}

/-- The links `pnext` are no part of the frame. -/
theorem Globals.Frame.setNext {g : Globals} (h : g₀.Frame g) (pprev pnext : BlockPtr) :
    g₀.Frame (g.setNext pprev pnext) := by
  unfold Globals.setNext
  split_ifs
  · exact h
  · exact ⟨h.mapBlockIndex, h.files, h.pindexGenesisBlock⟩

/-- `InvalidChainFound` writes only what is known of the best invalid chain. -/
theorem InFrame.invalidChain {n : Node} (h : InFrame g₀ n) (pindexNew : BlockPtr) :
    InFrame g₀ (n.invalidChain pindexNew) := by
  change g₀.Frame (n.toGlobals.invalidChainFound pindexNew)
  unfold Globals.invalidChainFound
  split_ifs
  · exact ⟨h.mapBlockIndex, h.files, h.pindexGenesisBlock⟩
  · exact h

/-- What runs on the store cannot reach the globals. -/
theorem keeps_frame_onStore {α : Type} (x : Globals → Command Store Failure α) :
    Keeps (InFrame g₀) (onStore x) := by
  refine Keeps.onPart (J := fun _ => True) (fun n s _ => ?_) (fun _ _ => trivial) (fun _ _ h _ => h)
  exact Triple.run.mono (fun _ _ _ => trivial) (fun _ _ _ => trivial)

/-- `Reorganize` sets links and takes transactions out of the pool; the tree and the files stay. -/
theorem keeps_frame_reorganize (pindexNew : BlockPtr) :
    Keeps (InFrame g₀) (reorganize P H pindexNew) := by
  refine Keeps.get.bind (fun n => (Keeps.lift _).bind (fun pfork => ?_))
  refine (keeps_frame_onStore _).bind (fun _ => Keeps.modify (fun n h => ?_))
  change g₀.Frame (n.toGlobals.reorganized P _ _ _ _)
  unfold Globals.reorganized
  rw [relink_eq]
  exact ⟨h.mapBlockIndex, h.files, h.pindexGenesisBlock⟩

/-- The same for the path that connects one block. -/
theorem keeps_frame_setBestChainInner (block : CBlock) (pindex : CBlockIndex) (pprev : BlockPtr) :
    Keeps (InFrame g₀) (setBestChainInner P H block pindex pprev) := by
  refine Keeps.bind (Keeps.onFailure (keeps_frame_onStore _) ?_) (fun _ => ?_)
  · intro n h
    exact h.invalidChain _
  · refine (keeps_frame_onStore _).bind (fun _ => ?_)
    cases pprev with
    | nil => exact Keeps.fail _
    | cons e q =>
      refine Keeps.modify (fun n h => ?_)
      have hnext := Globals.Frame.setNext h (e :: q) (pindex :: e :: q)
      exact ⟨hnext.mapBlockIndex, hnext.files, hnext.pindexGenesisBlock⟩

/-- The postponed blocks are connected one by one by that path. -/
theorem keeps_frame_connectPostponed (row : List (CBlockIndex × BlockPtr)) :
    Keeps (InFrame g₀) (connectPostponed P H row) := by
  intro n h
  refine (connectPostponed_rule (I := fun _ n => InFrame g₀ n) (F := InFrame g₀)
    (X := fun _ n => InFrame g₀ n) (fun _ _ _ h => h) ?_ h).mono ?_ (fun _ _ h => h)
  · intro pindex pprev row n block h _
    -- beginning a transaction is outside of the frame
    have hbegin : InFrame g₀ { n with toStore := { n.toStore with txdb := n.txdb.txnBegin } } := h
    refine (keeps_frame_setBestChainInner block pindex pprev _ hbegin).mono (fun _ _ h => h) ?_
    intro e n' h'
    split_ifs
    · exact h'
    · exact h'
  · intro fComplete n' h'
    split_ifs at h'
    · exact h'
    · exact h'

/-- All three ways of `SetBestChain` to change the chain. -/
theorem keeps_frame_setBestChainBranch (block : CBlock) (pindexNew : BlockPtr) :
    Keeps (InFrame g₀) (setBestChainBranch P H block pindexNew) := by
  intro n h
  refine Triple.get_bind ?_
  split_ifs with hgenesis
  · -- a genesis block that is set rules this branch out
    have hfree : g₀.pindexGenesisBlock ≠ [] → False := fun hne =>
      hne ((h.pindexGenesisBlock hne).symm.trans hgenesis.1)
    refine Keeps.bind (keeps_frame_onStore _) (fun _ => ?_) n h
    refine (keeps_frame_onStore _).bind (fun _ => Keeps.bind (Keeps.modify ?_) (fun _ => Keeps.pure _))
    intro n h
    exact ⟨h.mapBlockIndex, h.files, fun hne => (hfree hne).elim⟩
  · cases pindexNew with
    | nil => exact Keeps.fail _ n h
    | cons pindex pprev =>
      refine Keeps.bind (Keeps.onFailure (keeps_frame_setBestChainInner _ _ _) ?_)
        (fun _ => Keeps.pure _) n h
      intro n h
      exact h
  · refine Keeps.get.bind (fun n => Keeps.bind (Keeps.onFailure (keeps_frame_reorganize _) ?_)
      (fun _ => keeps_frame_connectPostponed _)) n h
    intro n h
    exact h.invalidChain _

/-- `SetBestChain` changes neither the tree nor the files, nor a genesis block that is set. -/
theorem keeps_frame_setBestChain (block : CBlock) (pindexNew : BlockPtr) :
    Keeps (InFrame g₀) (setBestChain P H block pindexNew) := by
  refine Keeps.bind (keeps_frame_onStore _) (fun _ => ?_)
  refine (keeps_frame_setBestChainBranch _ _).bind (fun _ => Keeps.bind (Keeps.modify ?_) ?_)
  · intro n h
    exact ⟨h.mapBlockIndex, h.files, h.pindexGenesisBlock⟩
  · exact fun _ => Keeps.pure _

/-- Opening and closing the database is not seen in the globals. -/
theorem keeps_frame_withTxDb {α : Type} {x : Command Node Failure α} (hx : Keeps (InFrame g₀) x) :
    Keeps (InFrame g₀) (withTxDb x) := by
  intro n h
  exact withTxDb_spec ((hx n h).mono (fun _ _ h' => h') (fun _ _ h' => h'))

/-! ### The synchronized checkpoint -/

/-- A checkpoint is made the best block by `SetBestChain`. -/
theorem keeps_frame_setBestToCheckpoint (hashCheckpoint : Uint256) (msgRead msgSet : String)
    {onInvalid : Node → Node} (hinvalid : ∀ n, InFrame g₀ n → InFrame g₀ (onInvalid n)) :
    Keeps (InFrame g₀) (setBestToCheckpoint P H hashCheckpoint msgRead msgSet onInvalid) := by
  refine Keeps.get.bind (fun n => ?_)
  simp only
  split_ifs
  · exact Keeps.pure _
  split
  · exact Keeps.fail _
  · refine Keeps.bind (Keeps.onFailure (Keeps.lift _) (fun _ h => h)) (fun block => ?_)
    refine Keeps.onFailure (keeps_frame_withTxDb ?_) hinvalid
    exact (keeps_frame_setBestChain _ _).bind (fun _ => Keeps.pure _)

/-- `hashSyncCheckpoint` is no part of the frame. -/
theorem keeps_frame_writeSyncCheckpoint (hashCheckpoint : Uint256) :
    Keeps (InFrame g₀) (writeSyncCheckpoint H hashCheckpoint) := by
  refine (keeps_require _ _).bind (fun _ => (keeps_require _ _).bind (fun _ => ?_))
  exact Keeps.modify (fun _ h => ⟨h.mapBlockIndex, h.files, h.pindexGenesisBlock⟩)

/-- Nor is `hashInvalidCheckpoint`. -/
theorem keeps_frame_validateSyncCheckpoint (hashCheckpoint : Uint256) :
    Keeps (InFrame g₀) (validateSyncCheckpoint hashCheckpoint) := by
  intro n h
  have hframe : g₀.Frame (n.toGlobals.validateSyncCheckpoint hashCheckpoint).2 := by
    unfold Globals.validateSyncCheckpoint
    -- where the checkpoint is found to be invalid, this field is all that is written
    have hinvalid : g₀.Frame { n.toGlobals with hashInvalidCheckpoint := hashCheckpoint } :=
      ⟨h.mapBlockIndex, h.files, h.pindexGenesisBlock⟩
    split
    · exact h
    · exact h
    · split_ifs
      · split
        · exact h
        · split_ifs
          · exact hinvalid
          · exact h
      · split
        · exact h
        · split_ifs
          · exact hinvalid
          · exact h
  exact hframe

/-- So a pending checkpoint is accepted inside the frame. -/
theorem keeps_frame_acceptPendingSyncCheckpoint :
    Keeps (InFrame g₀) (acceptPendingSyncCheckpoint P H) := by
  have hset : ∀ n, InFrame g₀ n → InFrame g₀ { n with hashPendingCheckpoint := 0 } :=
    fun _ h => ⟨h.mapBlockIndex, h.files, h.pindexGenesisBlock⟩
  refine Keeps.get.bind (fun n => (Keeps.lift _).bind (fun _ => ?_))
  refine (keeps_frame_validateSyncCheckpoint _).bind (fun fValid => ?_)
  simp only
  split_ifs
  · exact Keeps.bind (Keeps.modify hset) (fun _ => Keeps.fail _)
  · refine Keeps.bind (keeps_frame_setBestToCheckpoint _ _ _ ?_) (fun _ => ?_)
    · exact fun _ h => ⟨h.mapBlockIndex, h.files, h.pindexGenesisBlock⟩
    · refine Keeps.bind (Keeps.onFailure (keeps_frame_writeSyncCheckpoint _) (fun _ h => h)) ?_
      exact fun _ => Keeps.modify hset

/-! ### `AcceptBlock` -/

/-- The tree after a block was looked at: as before, or with the block. -/
def GrownBy (P : Params) (block : CBlock) (g g' : Globals) : Prop :=
  g'.mapBlockIndex = g.mapBlockIndex ∨
    g.mapBlockIndex.lookup (block.getHash P) = none ∧
      ∃ pindexNew, g'.mapBlockIndex = g.mapBlockIndex.insert (block.getHash P) pindexNew

/-- An entry of the index after a call was there before or is that of the new block. -/
theorem GrownBy.isSome_or {block : CBlock} {g g' : Globals} (h : GrownBy P block g g') {hash : Uint256}
    (hsome : (g'.mapBlockIndex.lookup hash).isSome) :
    (g.mapBlockIndex.lookup hash).isSome ∨ hash = block.getHash P := by
  rcases h with heq | ⟨-, pindexNew, heq⟩
  · rw [heq] at hsome
    exact .inl hsome
  · rw [heq, Map.lookup_insert_eq] at hsome
    split_ifs at hsome with hhash
    · exact .inr hhash
    · exact .inl hsome

/-- `AddToBlockIndex` adds the entry of its block and no other, whatever its result is. -/
theorem addToBlockIndex_grows (nFile nBlockPos : ℕ) (block : CBlock) (n : Node) :
    Triple (addToBlockIndex P H nFile nBlockPos block) n
      (fun _ n' => GrownBy P block n.toGlobals n'.toGlobals)
      (fun _ n' => GrownBy P block n.toGlobals n'.toGlobals) := by
  refine Triple.get_bind (Triple.lift_bind (fun _ hnew => ?_) (fun _ _ => .inl rfl))
  have hnone : n.mapBlockIndex.lookup (block.getHash P) = none := by
    simpa using require_eq_ok.mp hnew
  refine Triple.lift_bind (fun _ _ => ?_) (fun _ _ => .inl rfl)
  refine Triple.modify_bind ?_
  -- from here on the tree is that with the block
  set n₁ := Node.insertBlockIndex (block.newIndex P ((n.mapBlockIndex.lookup block.hashPrevBlock).getD [])
    nFile nBlockPos :: (n.mapBlockIndex.lookup block.hashPrevBlock).getD []) n with hn₁
  have hgrown : ∀ n', InFrame n₁.toGlobals n' → GrownBy P block n.toGlobals n'.toGlobals := by
    intro n' h
    exact .inr ⟨hnone, _, h.mapBlockIndex⟩
  refine Triple.mono (keeps_frame_withTxDb ?_ n₁ (Globals.Frame.refl _)) (fun _ => hgrown) (fun _ => hgrown)
  refine Keeps.bind (keeps_frame_onStore _) (fun _ => Keeps.bind (keeps_frame_onStore _) (fun _ => ?_))
  split_ifs
  · exact Keeps.bind (Keeps.modify (fun _ h => h)) (fun _ => Keeps.fail _)
  · refine Keeps.bind (Keeps.modify (fun _ h => h)) (fun _ => Keeps.get.bind (fun n => ?_))
    split_ifs
    · refine Keeps.onFailure ((keeps_frame_setBestChain _ _).bind (fun _ => Keeps.pure _)) ?_
      exact fun _ h => h
    · exact Keeps.pure _

/-- **`AcceptBlock` adds its block to the tree or nothing**, whichever way it ends. -/
theorem acceptBlock_grows (H' : Host) (block : CBlock) (n : Node) :
    Triple (acceptBlock P H H' block) n (fun _ n' => GrownBy P block n.toGlobals n'.toGlobals)
      (fun _ n' => GrownBy P block n.toGlobals n'.toGlobals) := by
  refine Triple.bind (acceptBlockWrite_spec.mono (fun _ _ h => h) ?_) ?_
  · -- a block that the checks refuse has changed nothing
    rintro e n' rfl
    exact .inl rfl
  · rintro ⟨nFile, nBlockPos⟩ n₁ ⟨pprev, files, -, -, rfl⟩
    refine Triple.bind (Triple.onFailure (addToBlockIndex_grows nFile nBlockPos block _) ?_ ?_) ?_
    · exact fun _ _ h _ => h
    · exact fun _ _ h _ => h
    · intro _ n₂ hgrown
      -- the pending checkpoint is tried when the block is in the tree, and keeps the frame
      have hpending := keeps_frame_acceptPendingSyncCheckpoint (P := P) (H := H') n₂
        (Globals.Frame.refl _)
      have hafter : ∀ n₃, InFrame n₂.toGlobals n₃ → GrownBy P block n.toGlobals n₃.toGlobals := by
        intro n₃ h
        unfold GrownBy
        rw [h.mapBlockIndex]
        exact hgrown
      unfold Triple at hpending ⊢
      cases hrun : acceptPendingSyncCheckpoint P H' n₂ with
      | mk r n₃ =>
        rw [hrun] at hpending
        cases r with
        | ok u =>
          simp only [hrun]
          exact hafter n₃ hpending
        | error e =>
          simp only [hrun]
          cases he : e.isReturn with
          | true => exact hafter n₃ hpending
          | false => exact hafter n₃ hpending

end Frame

end Peershares
