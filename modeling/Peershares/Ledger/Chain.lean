import Mathlib.Logic.Relation
import Peershares.Ledger.Refinement

/-!
# The chain machine

Blocks are accepted into a tree, and the tip moves along it by `ConnectBlock` and
`DisconnectBlock`, in any order (`ChainState.Step`). This is everything chain selection can do to
the transaction index: `SetBestChain` and `Reorganize` are runs of this machine.

The invariant (`ChainState.Inv`) has two halves. `TreeInv` is about the tree and the block files: every chain ends in
genesis, with heights that count up and blocks that have passed their checks, and what is in the files stays
there. `LedgerInv` is about the index: it shows the ledger of the chain below the tip, and `nMoneySupply`
is the value of that ledger for every block of the chain.

A step changes one of the halves and is a frame for the other. Accepting a block writes to the files only, at a place
behind everything that was written (`LedgerInv.of_files`); connecting and disconnecting leave the tree alone, and
their loops are those of the refinement.

* `connectedTxs` — the transactions of a chain, in the order in which they were connected
* `LedgerInv.connect`, `LedgerInv.disconnect` — the two moves of the tip
* `TreeInv.step`, `LedgerInv.step`, `Reachable.inv` — one step, and every reachable state

Genesis is not connected: its transaction is not in the index and its money supply is zero.
-/

open Framework

namespace Peershares

open IndexView

/-! ### The chain below a block -/

/-- The transactions of a chain that `ConnectBlock` has connected: all but that of genesis. -/
def connectedTxs (files : BlockFiles) : BlockPtr → List ConnectedTx
  | [] => []
  | [_] => []
  | pindex :: pprev =>
    connectedTxs files pprev ++
      match files.readBlock pindex.nFile pindex.nBlockPos with
      | none => []
      | some block =>
        blockTxs pindex pprev (StoredBlock.firstTxPos ⟨pindex.nFile, pindex.nBlockPos, block⟩)
          block.vtx

/-- The transactions of a branch are those of the branch below and of its last block. -/
theorem connectedTxs_cons {files : BlockFiles} (pindex : CBlockIndex) {pprev : BlockPtr}
    {block : CBlock} (hne : pprev ≠ [])
    (hread : files.readBlock pindex.nFile pindex.nBlockPos = some block) :
    connectedTxs files (pindex :: pprev) = connectedTxs files pprev ++
      blockTxs pindex pprev (StoredBlock.firstTxPos ⟨pindex.nFile, pindex.nBlockPos, block⟩)
        block.vtx := by
  cases pprev with
  | nil => exact absurd rfl hne
  | cons e p =>
    rw [connectedTxs, hread]
    exact hne

/-- A block of the tree with all below it: each is stored where its entry says and passed
`CheckBlock` and the contextual checks of `AcceptBlock`. -/
inductive TreeOk (P : Params) (files : BlockFiles) : BlockPtr → Prop where
  | genesis (hread : files.readBlock 1 8 = some P.genesisBlock) : TreeOk P files [P.genesisIndex]
  | accepted {pprev : BlockPtr} {nFile nBlockPos : ℕ} {block : CBlock} (hprev : TreeOk P files pprev)
      (hread : files.readBlock nFile nBlockPos = some block) (hchecked : block.Checked P)
      (hkind : block.isProofOfWork = true ↔
        ((pprev.nHeight + 1 : ℕ) : Int) ≤ PROOF_OF_WORK_BLOCKS)
      (htime : pprev.getMedianTimePast < block.getBlockTime) :
      TreeOk P files (block.newIndex P pprev nFile nBlockPos :: pprev)

namespace TreeOk

variable {P : Params} {files files' : BlockFiles} {p : BlockPtr}

/-- A branch has at least the genesis block. -/
theorem ne_nil (h : TreeOk P files p) : p ≠ [] := by
  cases h <;> simp

/-- A block above genesis. -/
theorem cons_inv {e : CBlockIndex} (h : TreeOk P files (e :: p)) (hne : p ≠ []) :
    ∃ block : CBlock, files.readBlock e.nFile e.nBlockPos = some block ∧ block.Checked P ∧
      e = block.newIndex P p e.nFile e.nBlockPos ∧
      (block.isProofOfWork = true ↔ ((p.nHeight + 1 : ℕ) : Int) ≤ PROOF_OF_WORK_BLOCKS) := by
  cases h with
  | genesis hread => exact absurd rfl hne
  | accepted hprev hread hchecked hkind htime => exact ⟨_, hread, hchecked, rfl, hkind⟩

/-- The heights go down by one. -/
theorem heightsOk (h : TreeOk P files p) : p.HeightsOk := by
  induction h with
  | genesis hread => exact ⟨rfl, trivial⟩
  | @accepted pprev nFile nBlockPos block hprev hread hchecked hkind htime ih =>
    refine ⟨?_, ih⟩
    obtain ⟨e, q, rfl⟩ := List.exists_cons_of_ne_nil hprev.ne_nil
    change (if (e :: q).isEmpty then 0 else e.nHeight + 1) = (e :: q).length
    rw [ih.1]
    rfl

/-- No block is older than genesis. -/
theorem nTimeGenesis_le (h : TreeOk P files p) : ∀ e ∈ p, P.nTimeGenesis ≤ e.nTime := by
  induction h with
  | genesis hread =>
    intro e he
    rw [List.mem_singleton.mp he]
    exact le_refl _
  | @accepted pprev nFile nBlockPos block hprev hread hchecked hkind htime ih =>
    obtain ⟨m, hm, hmedian⟩ := BlockPtr.getMedianTimePast_mem hprev.ne_nil
    refine List.forall_mem_cons.mpr ⟨?_, ih⟩
    have hge := ih m hm
    rw [hmedian] at htime
    change P.nTimeGenesis ≤ block.nTime
    simp only [CBlock.getBlockTime] at htime
    omega

/-- A part of a branch down to the genesis block is a branch. -/
theorem suffix (h : TreeOk P files p) {q : BlockPtr} (hs : q <:+ p) (hne : q ≠ []) :
    TreeOk P files q := by
  induction h with
  | genesis hread =>
    rcases List.suffix_cons_iff.mp hs with rfl | hs
    · exact TreeOk.genesis hread
    · exact absurd (List.suffix_nil.mp hs) hne
  | accepted hprev hread hchecked hkind htime ih =>
    rcases List.suffix_cons_iff.mp hs with rfl | hs
    · exact TreeOk.accepted hprev hread hchecked hkind htime
    · exact ih hs

/-- Every chain begins with genesis. -/
theorem genesis_suffix (h : TreeOk P files p) : [P.genesisIndex] <:+ p := by
  induction h with
  | genesis hread => exact List.suffix_rfl
  | accepted hprev hread hchecked hkind htime ih => exact ih.trans (List.suffix_cons _ _)

/-- The tree survives writing more blocks. -/
theorem mono (h : TreeOk P files p) (hwf : files'.WellFormed)
    (hsub : ∀ r ∈ files.blocks, r ∈ files'.blocks) : TreeOk P files' p := by
  induction h with
  | genesis hread =>
    exact TreeOk.genesis (hwf.readBlock_eq_some.mpr (hsub _ (BlockFiles.mem_of_readBlock hread)))
  | accepted hprev hread hchecked hkind htime ih =>
    exact TreeOk.accepted ih
      (hwf.readBlock_eq_some.mpr (hsub _ (BlockFiles.mem_of_readBlock hread))) hchecked hkind htime

/-- More blocks in the files do not change what a branch holds. -/
theorem connectedTxs_mono (h : TreeOk P files p) (hwf : files'.WellFormed)
    (hsub : ∀ r ∈ files.blocks, r ∈ files'.blocks) :
    connectedTxs files' p = connectedTxs files p := by
  induction h with
  | genesis hread => rfl
  | @accepted pprev nFile nBlockPos block hprev hread hchecked hkind htime ih =>
    have hread' := hwf.readBlock_eq_some.mpr (hsub _ (BlockFiles.mem_of_readBlock hread))
    rw [connectedTxs_cons (block.newIndex P pprev nFile nBlockPos) hprev.ne_nil hread,
      connectedTxs_cons (block.newIndex P pprev nFile nBlockPos) hprev.ne_nil hread', ih]

end TreeOk

/-! ### Positions of connected transactions -/

/-- A transaction of a block has its place in the file. -/
theorem mem_blockTxs {pindex : CBlockIndex} {pprev : BlockPtr} {nTxPos : ℕ}
    {vtx : List CTransaction} {c : ConnectedTx} (h : c ∈ blockTxs pindex pprev nTxPos vtx) :
    c.pindex = pindex :: pprev ∧ ∃ before after, vtx = before ++ c.tx :: after ∧
      c.pos = ⟨pindex.nFile, pindex.nBlockPos, txOffset nTxPos before⟩ := by
  induction vtx generalizing nTxPos with
  | nil => exact absurd h (by simp [blockTxs])
  | cons tx vtx ih =>
    rcases List.mem_cons.mp h with rfl | h
    · exact ⟨rfl, [], vtx, rfl, by simp [roundTx, txOffset]⟩
    · obtain ⟨hindex, before, after, rfl, hpos⟩ := ih h
      refine ⟨hindex, tx :: before, after, rfl, ?_⟩
      rw [hpos]
      simp only [txOffset, List.map_cons, List.sum_cons, Nat.add_assoc]

/-- And can be read from there. -/
theorem isStored_of_mem_blockTxs {files : BlockFiles} (hwf : files.WellFormed)
    (pindex : CBlockIndex) {pprev : BlockPtr} {block : CBlock}
    (hread : files.readBlock pindex.nFile pindex.nBlockPos = some block) :
    ∀ c ∈ blockTxs pindex pprev
        (StoredBlock.firstTxPos ⟨pindex.nFile, pindex.nBlockPos, block⟩) block.vtx,
      c.IsStored files := by
  intro c hc
  have hmem := BlockFiles.mem_of_readBlock hread
  obtain ⟨-, before, after, hvtx, hpos⟩ := mem_blockTxs hc
  refine ⟨?_, ?_, ?_⟩
  · rw [hpos]
    exact hwf.readTx_of_mem hmem hvtx _
  · rw [hpos]
    simpa [CDiskTxPos.isNull] using hwf.nFile_ne _ hmem
  · rw [hpos]
    intro heq
    have hge := hwf.nBlockPos_ge _ hmem
    have hone : pindex.nBlockPos = 1 := (CDiskTxPos.mk.inj heq).2.1
    simp only [hone] at hge
    omega

/-- So can every transaction of a branch. -/
theorem TreeOk.isStored {P : Params} {files : BlockFiles} {p : BlockPtr} (h : TreeOk P files p)
    (hwf : files.WellFormed) : ∀ c ∈ connectedTxs files p, c.IsStored files := by
  induction h with
  | genesis hread => simp [connectedTxs]
  | @accepted pprev nFile nBlockPos block hprev hread hchecked hkind htime ih =>
    intro c hc
    rw [connectedTxs_cons (block.newIndex P pprev nFile nBlockPos) hprev.ne_nil hread]
      at hc
    rcases List.mem_append.mp hc with hc | hc
    · exact ih c hc
    · exact isStored_of_mem_blockTxs hwf (block.newIndex P pprev nFile nBlockPos) hread c hc

/-- An index that is right stays right when more blocks are written. -/
theorem IndexOk.mono {P : Params} {files files' : BlockFiles} {txs : List ConnectedTx}
    {L : IndexView} (hok : IndexOk P files txs L) (hstored : ∀ c ∈ txs, c.IsStored files)
    (hstored' : ∀ c ∈ txs, c.IsStored files') : IndexOk P files' txs L := by
  refine ⟨?_, hok.entry⟩
  rw [← hok.unspent_eq]
  funext o
  simp only [unspent, posOf]
  cases hL : L o.1 with
  | none => rfl
  | some e =>
    obtain ⟨c, hlatest, hpos, -⟩ := hok.entry o.1 e hL
    have hmem := mem_of_latestTx hlatest
    simp only [Option.map_some, Option.bind_some]
    rw [hpos, (hstored c hmem).coinAt P, (hstored' c hmem).coinAt P]

/-! ### The machine -/

/-- The block tree on disk and in memory, and the state of the ledger on it. -/
structure ChainState where
  files : BlockFiles
  /-- `mapBlockIndex`. -/
  tree : List BlockPtr
  /-- The block up to which the index is connected. -/
  tip : BlockPtr
  txIndex : TxIndexMap
  /-- `pindex->nMoneySupply`, by block hash. -/
  nMoneySupply : Uint256 → Int
  /-- A history variable: the coin age `GetCoinAge` gave for the coinstake of a block when the block
  was last connected. -/
  nCoinAge : Uint256 → Int

/-- The coin age of the coinstake of a block, zero when it has none. -/
def CBlock.stakeCoinAge (P : Params) (env : ConnectEnv) (block : CBlock) : Int :=
  match block.vtx with
  | _ :: txCoinStake :: _ =>
    if txCoinStake.isCoinStake then (txCoinStake.getCoinAge P env).getD 0 else 0
  | _ => 0

namespace ChainState

/-- Genesis in the tree, an empty index. -/
def init (P : Params) : ChainState where
  files := P.genesisFiles
  tree := [[P.genesisIndex]]
  tip := [P.genesisIndex]
  txIndex := ∅
  nMoneySupply := fun _ => 0
  nCoinAge := fun _ => 0

/-- The environment of a `ConnectBlock` call. The memory pool and `nBestHeight` are not part of the
chain state; a step is possible for each value of them. -/
def env (s : ChainState) (mempool : Map Uint256 CTransaction) (nBestHeight : Int) : ConnectEnv where
  files := s.files
  txIndex := s.txIndex
  mempool := mempool
  nBestHeight := nBestHeight

/-- The state after `AcceptBlock` wrote a block and `AddToBlockIndex` made its entry. -/
def accepted (P : Params) (s : ChainState) (pprev : BlockPtr) (block : CBlock) (files : BlockFiles)
    (nFile nBlockPos : ℕ) : ChainState :=
  { s with
    files
    tree := (block.newIndex P pprev nFile nBlockPos :: pprev) :: s.tree }

/-- The state after a successful `ConnectBlock`. -/
def connected (P : Params) (s : ChainState) (env : ConnectEnv) (pindex : CBlockIndex)
    (block : CBlock) (st : ConnectState) : ChainState :=
  { s with
    tip := pindex :: s.tip
    txIndex := st.writeQueued s.txIndex
    nMoneySupply := Function.update s.nMoneySupply pindex.hashBlock
      (s.nMoneySupply s.tip.hash + st.nValueOut - st.nValueIn)
    nCoinAge := Function.update s.nCoinAge pindex.hashBlock (block.stakeCoinAge P env) }

/-- One step of the machine. -/
inductive Step (P : Params) (s : ChainState) : ChainState → Prop where
  /-- `AcceptBlock` puts a block into the tree. -/
  | accept {pprev : BlockPtr} {block : CBlock} {files : BlockFiles} {nFile nBlockPos : ℕ}
      {nBestHeight nAdjustedTime nAdjustedTime' : Int} (hprev : pprev ∈ s.tree)
      (hnew : ∀ p ∈ s.tree, p.hash ≠ block.getHash P)
      (hhash : block.hashPrevBlock = pprev.hash)
      (hcheck : block.checkBlock P nAdjustedTime = .ok ())
      (hcontext : block.acceptBlockContext P nBestHeight nAdjustedTime' pprev = .ok ())
      (hwrite : s.files.writeToDisk block = some (files, nFile, nBlockPos)) :
      Step P s (s.accepted P pprev block files nFile nBlockPos)
  /-- `AcceptBlock` writes a block, but no entry is made. -/
  | store {block : CBlock} {files : BlockFiles} {nFile nBlockPos : ℕ}
      (hwrite : s.files.writeToDisk block = some (files, nFile, nBlockPos)) :
      Step P s { s with files }
  /-- `ConnectBlock` succeeds on a successor of the tip. -/
  | connect {pindex : CBlockIndex} {block : CBlock} {mempool : Map Uint256 CTransaction}
      {nBestHeight nAdjustedTime : Int} {st : ConnectState} (hmem : pindex :: s.tip ∈ s.tree)
      (hread : s.files.readBlock pindex.nFile pindex.nBlockPos = some block)
      (hconnect : block.connectChecks P (s.env mempool nBestHeight) nAdjustedTime pindex s.tip
        = .ok st) :
      Step P s (s.connected P (s.env mempool nBestHeight) pindex block st)
  /-- `DisconnectBlock` succeeds on the tip. -/
  | disconnect {pindex : CBlockIndex} {pprev : BlockPtr} {block : CBlock} {txIndex : TxIndexMap}
      (htip : s.tip = pindex :: pprev) (hne : pprev ≠ [])
      (hread : s.files.readBlock pindex.nFile pindex.nBlockPos = some block)
      (hdisconnect : block.disconnectIndex P s.txIndex = .ok txIndex) :
      Step P s { s with tip := pprev, txIndex }

/-- The states the machine reaches from genesis. -/
def Reachable (P : Params) (s : ChainState) : Prop := Relation.ReflTransGen (Step P) (init P) s

end ChainState

/-! ### The invariant -/

/-- The value of the coinbase outputs of a block. -/
def coinBaseValueAt (files : BlockFiles) (pindex : CBlockIndex) : Int :=
  match files.readBlock pindex.nFile pindex.nBlockPos with
  | none => 0
  | some block => ((block.vtx.filter CTransaction.isCoinBase).map CTransaction.valueOut).sum

/-- The reward for the coin age of the coinstake of a block. -/
def stakeRewardAt (nCoinAge : Uint256 → Int) (pindex : CBlockIndex) : Int :=
  if pindex.fProofOfStake then getProofOfStakeReward (nCoinAge pindex.hashBlock) else 0

namespace ChainState

/-- The tree is closed under `pprev`, a hash names one block of it, and the tip is one of them. -/
structure TreeInv (P : Params) (s : ChainState) : Prop where
  files : s.files.WellFormed
  treeOk : ∀ p ∈ s.tree, TreeOk P s.files p
  closed : ∀ e p, e :: p ∈ s.tree → p ≠ [] → p ∈ s.tree
  unique : ∀ p ∈ s.tree, ∀ q ∈ s.tree, p.hash = q.hash → p = q
  tip_mem : s.tip ∈ s.tree

/-- The index shows the ledger of the chain, and `nMoneySupply` is its value at each block. -/
structure LedgerInv (P : Params) (s : ChainState) : Prop where
  index : IndexOk P s.files (connectedTxs s.files s.tip) s.txIndex.lookup
  valid : ValidTxs P (connectedTxs s.files s.tip)
  supply : ∀ q : BlockPtr, q <:+ s.tip → q ≠ [] →
    s.nMoneySupply q.hash = Peershares.supply P (connectedTxs s.files q)
  bound : ∀ e q, e :: q <:+ s.tip → q ≠ [] →
    Peershares.supply P (connectedTxs s.files (e :: q)) ≤
      Peershares.supply P (connectedTxs s.files q) + coinBaseValueAt s.files e
        + stakeRewardAt s.nCoinAge e

variable {P : Params} {s s' : ChainState}

/-- The tree has all the parts of its branches. -/
theorem TreeInv.mem_of_suffix (h : TreeInv P s) {p q : BlockPtr} (hp : p ∈ s.tree) (hs : q <:+ p)
    (hne : q ≠ []) : q ∈ s.tree := by
  induction p with
  | nil => exact absurd (List.suffix_nil.mp hs) hne
  | cons e p ih =>
    rcases List.suffix_cons_iff.mp hs with rfl | hs
    · exact hp
    · refine ih (h.closed e p hp ?_) hs
      rintro rfl
      exact hne (List.suffix_nil.mp hs)

/-- The file with the genesis block. -/
theorem genesisFiles_wellFormed (P : Params) : P.genesisFiles.WellFormed :=
  ⟨List.pairwise_singleton _ _, by simp [Params.genesisFiles, UINT_MAX],
    by simp [Params.genesisFiles]⟩

/-- The tree at the start. -/
theorem TreeInv.init (P : Params) : TreeInv P (init P) := by
  refine ⟨genesisFiles_wellFormed P, ?_, ?_, ?_, List.mem_singleton_self _⟩
  · intro p hp
    rw [List.mem_singleton.mp hp]
    exact TreeOk.genesis rfl
  · intro e p hp hne
    cases List.mem_singleton.mp hp
    exact absurd rfl hne
  · intro p hp q hq _
    rw [List.mem_singleton.mp hp, List.mem_singleton.mp hq]

/-- The ledger at the start: the genesis block is never connected. -/
theorem LedgerInv.init (P : Params) : LedgerInv P (init P) := by
  refine ⟨?_, Ledger.ValidRun.nil, ?_, ?_⟩
  · have hlook : (∅ : TxIndexMap).lookup = fun _ => none := funext Map.lookup_empty
    change IndexOk P P.genesisFiles [] (∅ : TxIndexMap).lookup
    rw [hlook]
    exact IndexOk.empty P _
  · intro q hq hne
    rcases List.suffix_cons_iff.mp hq with rfl | hq
    · exact (Ledger.total_empty _).symm
    · exact absurd (List.suffix_nil.mp hq) hne
  · intro e q hq hne
    rcases List.suffix_cons_iff.mp hq with heq | hq
    · cases heq
      exact absurd rfl hne
    · exact absurd (List.suffix_nil.mp hq) (by simp)

/-! ### Writing a block -/

/-- `WriteToDisk` appends. -/
theorem writeToDisk_sub {files files' : BlockFiles} {block : CBlock} {nFile nBlockPos : ℕ}
    (hw : files.writeToDisk block = some (files', nFile, nBlockPos)) :
    ∀ r ∈ files.blocks, r ∈ files'.blocks := by
  intro r hr
  rw [(BlockFiles.writeToDisk_eq_some hw).2.2]
  exact List.mem_cons_of_mem _ hr

/-- A block that was just written is read back. -/
theorem readBlock_of_writeToDisk {files files' : BlockFiles} (hwf : files.WellFormed)
    {block : CBlock} {nFile nBlockPos : ℕ}
    (hw : files.writeToDisk block = some (files', nFile, nBlockPos)) :
    files'.readBlock nFile nBlockPos = some block := by
  rw [(hwf.writeToDisk hw).readBlock_eq_some, (BlockFiles.writeToDisk_eq_some hw).2.2]
  exact List.mem_cons_self

/-- So a block that was read is still read. -/
theorem readBlock_mono {files files' : BlockFiles} (hwf : files'.WellFormed)
    (hsub : ∀ r ∈ files.blocks, r ∈ files'.blocks) {nFile nBlockPos : ℕ} {block : CBlock}
    (hread : files.readBlock nFile nBlockPos = some block) :
    files'.readBlock nFile nBlockPos = some block :=
  hwf.readBlock_eq_some.mpr (hsub _ (BlockFiles.mem_of_readBlock hread))

/-- The ledger part of the invariant does not depend on the blocks written later. -/
theorem LedgerInv.of_files (h : LedgerInv P s) (ht : TreeInv P s) {files : BlockFiles}
    (hwf : files.WellFormed) (hsub : ∀ r ∈ s.files.blocks, r ∈ files.blocks) :
    LedgerInv P { s with files } := by
  -- what was written stays where it is, so the chain has the same transactions
  have hsame : ∀ q, q <:+ s.tip → q ≠ [] → connectedTxs files q = connectedTxs s.files q :=
    fun q hq hne => ((ht.treeOk _ ht.tip_mem).suffix hq hne).connectedTxs_mono hwf hsub
  have htip := hsame s.tip List.suffix_rfl (ht.treeOk _ ht.tip_mem).ne_nil
  have hstored := (ht.treeOk _ ht.tip_mem).isStored ht.files
  have hstored' := ((ht.treeOk _ ht.tip_mem).mono hwf hsub).isStored hwf
  refine ⟨?_, ?_, ?_, ?_⟩
  · change IndexOk P files (connectedTxs files s.tip) s.txIndex.lookup
    rw [htip] at hstored' ⊢
    exact h.index.mono hstored hstored'
  · change ValidTxs P (connectedTxs files s.tip)
    rw [htip]
    exact h.valid
  · intro q hq hne
    change s.nMoneySupply (BlockPtr.hash q) = Peershares.supply P (connectedTxs files q)
    rw [hsame q hq hne]
    exact h.supply q hq hne
  · intro e q hq hne
    have hb := h.bound e q hq hne
    -- the block of `e` is read from the same place
    have hval : coinBaseValueAt files e = coinBaseValueAt s.files e := by
      obtain ⟨block, hread, -⟩ := ((ht.treeOk _ ht.tip_mem).suffix hq (by simp)).cons_inv hne
      simp only [coinBaseValueAt, hread, readBlock_mono hwf hsub hread]
    change Peershares.supply P (connectedTxs files (e :: q)) ≤
      Peershares.supply P (connectedTxs files q) + coinBaseValueAt files e
        + stakeRewardAt s.nCoinAge e
    rw [hsame _ hq (by simp), hsame q ((List.suffix_cons e q).trans hq) hne, hval]
    exact hb

/-! ### Connecting a block -/

/-- The rule against overwriting is active for every block of the tree. -/
theorem bip30Active_of_treeOk {files : BlockFiles} {p : BlockPtr} (h : TreeOk P files p)
    {e : CBlockIndex} (he : e ∈ p) : bip30Active P e.nTime = true := by
  have hge := h.nTimeGenesis_le e he
  have hgen : 1331769600 < P.nTimeGenesis := by
    unfold Params.nTimeGenesis
    split_ifs <;> norm_num
  simp only [bip30Active, Bool.or_eq_true, decide_eq_true_eq]
  exact Or.inl (lt_of_lt_of_le hgen hge)

/-- A block that overwrites nothing unspent has only free transaction hashes. -/
theorem fresh_of_overwritesUnspent {files : BlockFiles} {txs : List ConnectedTx}
    {txIndex : TxIndexMap} (block : CBlock) (hok : IndexOk P files txs txIndex.lookup)
    (h : block.overwritesUnspent P txIndex = false) :
    ∀ tx ∈ block.vtx, ∀ n, replayTxs P txs (P.hashTx tx, n) = none := by
  intro tx htx n
  have hall := List.any_eq_false.mp h tx htx
  rw [← hok.unspent_eq, unspent, if_neg]
  intro hnull
  refine hall ?_
  simp only [nullAt] at hnull
  cases hlook : txIndex.lookup (P.hashTx tx) with
  | none => simp [hlook] at hnull
  | some e =>
    rw [hlook, Option.any_some] at hnull
    rw [Option.any_some, List.any_eq_true]
    cases hpos : e.vSpent[n]? with
    | none => simp [hpos] at hnull
    | some pos =>
      rw [hpos, Option.any_some] at hnull
      exact ⟨pos, List.mem_of_getElem? hpos, hnull⟩

/-- In a checked block only the coinbase and the coinstake may add to the money supply. -/
theorem sum_allowance {env : ConnectEnv} {block : CBlock} (h : block.Checked P) :
    (block.vtx.map (allowance P env)).sum =
      ((block.vtx.filter CTransaction.isCoinBase).map CTransaction.valueOut).sum +
        (if block.isProofOfStake then getProofOfStakeReward (block.stakeCoinAge P env) else 0) := by
  obtain ⟨cb, rest, hvtx, hcb, hncb, hncs, -⟩ := h.shape
  -- the coinbase is the first transaction, and the only one
  have hfilter : block.vtx.filter CTransaction.isCoinBase = [cb] := by
    rw [hvtx, List.filter_cons_of_pos hcb, List.filter_eq_nil_iff.mpr (by simpa using hncb)]
  have hcbAllow : allowance P env cb = cb.valueOut := if_pos hcb
  -- behind the coinstake nothing mints
  have hzero : ∀ vtx : List CTransaction, (∀ tx ∈ vtx, tx.isCoinBase = false) →
      (∀ tx ∈ vtx, tx.isCoinStake = false) → (vtx.map (allowance P env)).sum = 0 := by
    intro vtx hb hs
    refine List.sum_eq_zero (fun v hv => ?_)
    obtain ⟨tx, htx, rfl⟩ := List.mem_map.mp hv
    rw [allowance, if_neg (by simp [hb tx htx]), if_neg (by simp [hs tx htx])]
  rw [hfilter, hvtx, List.map_cons, List.sum_cons, hcbAllow]
  simp only [CBlock.isProofOfStake, CBlock.stakeCoinAge, hvtx]
  cases rest with
  | nil => simp
  | cons tx rest =>
    have hb := List.forall_mem_cons.mp hncb
    rw [List.map_cons, List.sum_cons, hzero rest hb.2 hncs, allowance, if_neg (by simp [hb.1])]
    split_ifs with hcs
    · simp [hcs]
    · simp

/-- A successful `ConnectBlock` on the tip is a run of the ledger over the block. -/
theorem LedgerInv.loopOk (h : LedgerInv P s) (ht : TreeInv P s) {pindex : CBlockIndex}
    {block : CBlock} {mempool : Map Uint256 CTransaction} {nBestHeight nAdjustedTime : Int}
    {st : ConnectState} (hmem : pindex :: s.tip ∈ s.tree)
    (hread : s.files.readBlock pindex.nFile pindex.nBlockPos = some block)
    (hconnect : block.connectChecks P (s.env mempool nBestHeight) nAdjustedTime pindex s.tip
      = .ok st) :
    block.Checked P ∧
    LoopOk P (s.env mempool nBestHeight) (connectedTxs s.files s.tip) (blockTxs pindex s.tip
      (StoredBlock.firstTxPos ⟨pindex.nFile, pindex.nBlockPos, block⟩) block.vtx) block.vtx
      { nTxPos := StoredBlock.firstTxPos ⟨pindex.nFile, pindex.nBlockPos, block⟩ } st := by
  have htipOk := ht.treeOk _ ht.tip_mem
  simp only [CBlock.connectChecks, Result.bind_eq_ok, require_eq_ok] at hconnect
  obtain ⟨_, hcheck, -, hbip30, hloop⟩ := hconnect
  have hchecked := CBlock.checked_of_checkBlock hcheck
  -- no hash of the block is that of a transaction with unspent outputs
  have hfresh := fresh_of_overwritesUnspent block h.index (by
    simpa [bip30Active_of_treeOk (ht.treeOk _ hmem) List.mem_cons_self, env] using hbip30)
  -- the queue is empty when the loop begins
  have hindex : IndexOk P (s.env mempool nBestHeight).files (connectedTxs s.files s.tip)
      (queued (∅ : TxIndexMap) (s.env mempool nBestHeight).txIndex) := by
    rw [queued_empty]
    exact h.index
  exact ⟨hchecked, hindex.connectTransactions h.valid (htipOk.isStored ht.files)
    (isStored_of_mem_blockTxs ht.files pindex hread) hfresh hchecked.txids_nodup hloop⟩

/-- A connected block applies its transactions to the ledger. -/
theorem LedgerInv.connect (h : LedgerInv P s) (ht : TreeInv P s) {pindex : CBlockIndex}
    {block : CBlock} {mempool : Map Uint256 CTransaction} {nBestHeight nAdjustedTime : Int}
    {st : ConnectState} (hmem : pindex :: s.tip ∈ s.tree)
    (hread : s.files.readBlock pindex.nFile pindex.nBlockPos = some block)
    (hconnect : block.connectChecks P (s.env mempool nBestHeight) nAdjustedTime pindex s.tip
      = .ok st) :
    LedgerInv P (s.connected P (s.env mempool nBestHeight) pindex block st) := by
  have htipOk := ht.treeOk _ ht.tip_mem
  have hnewOk := ht.treeOk _ hmem
  obtain ⟨hchecked, hvalid, hidx, hsupply, hbound, -, -, -⟩ := h.loopOk ht hmem hread hconnect
  rw [← connectedTxs_cons pindex htipOk.ne_nil hread] at hvalid hidx hsupply hbound
  change IndexOk P s.files _ _ at hidx
  have htipSupply := h.supply s.tip List.suffix_rfl htipOk.ne_nil
  -- the hash of the new tip is that of no block below it
  have hother : ∀ q : BlockPtr, q <:+ s.tip → q ≠ [] → q.hash ≠ pindex.hashBlock := by
    intro q hq hne heq
    have hqp := ht.unique q (ht.mem_of_suffix ht.tip_mem hq hne) _ hmem heq
    have hlen := hq.length_le
    rw [hqp, List.length_cons] at hlen
    omega
  refine ⟨?_, hvalid, ?_, ?_⟩
  · -- the index shows the ledger with the transactions of the block
    change IndexOk P s.files (connectedTxs s.files (pindex :: s.tip))
      (st.writeQueued s.txIndex).lookup
    rw [lookup_writeQueued]
    exact hidx
  · -- the supply of each block
    intro q hq hne
    change Function.update s.nMoneySupply pindex.hashBlock _ (BlockPtr.hash q) = _
    rcases List.suffix_cons_iff.mp hq with rfl | hq
    · rw [BlockPtr.hash_cons, Function.update_self, htipSupply]
      change _ = Peershares.supply P (connectedTxs s.files (pindex :: s.tip))
      linarith
    · rw [Function.update_of_ne (hother q hq hne)]
      exact h.supply q hq hne
  · -- and its bound
    intro e q hq hne
    change Peershares.supply P (connectedTxs s.files (e :: q)) ≤
      Peershares.supply P (connectedTxs s.files q) + coinBaseValueAt s.files e
        + stakeRewardAt (Function.update s.nCoinAge pindex.hashBlock _) e
    rcases List.suffix_cons_iff.mp hq with heq | hq
    · cases heq
      have hstake : pindex.fProofOfStake = block.isProofOfStake := by
        obtain ⟨block', hread', -, heq, -⟩ := hnewOk.cons_inv htipOk.ne_nil
        cases hread'.symm.trans hread
        rw [heq]
        rfl
      rw [sum_allowance hchecked] at hbound
      simp only [coinBaseValueAt, hread, stakeRewardAt, Function.update_self, hstake]
      linarith
    · have hne' := hother _ hq (by simp)
      rw [BlockPtr.hash_cons] at hne'
      rw [stakeRewardAt, Function.update_of_ne hne']
      exact h.bound e q hq hne

/-! ### Disconnecting a block -/

/-- A disconnected block takes them back. -/
theorem LedgerInv.disconnect (h : LedgerInv P s) (ht : TreeInv P s) {pindex : CBlockIndex}
    {pprev : BlockPtr} {block : CBlock} {txIndex : TxIndexMap} (htip : s.tip = pindex :: pprev)
    (hne : pprev ≠ []) (hread : s.files.readBlock pindex.nFile pindex.nBlockPos = some block)
    (hdisconnect : block.disconnectIndex P s.txIndex = .ok txIndex) :
    LedgerInv P { s with tip := pprev, txIndex } := by
  have htxs := connectedTxs_cons pindex hne hread
  have hindex := h.index
  have hvalid := h.valid
  have hstored := (ht.treeOk _ ht.tip_mem).isStored ht.files
  rw [htip, htxs] at hindex hvalid hstored
  have hsuffix : pprev <:+ s.tip := htip ▸ List.suffix_cons pindex pprev
  refine ⟨hindex.disconnectTransactions hvalid hstored ?_, hvalid.of_append,
    fun q hq hq' => h.supply q (hq.trans hsuffix) hq',
    fun e q hq hq' => h.bound e q (hq.trans hsuffix) hq'⟩
  rw [map_tx_blockTxs]
  exact hdisconnect

/-! ### The whole run -/

/-- The two parts of the invariant. -/
structure Inv (P : Params) (s : ChainState) : Prop where
  tree : TreeInv P s
  ledger : LedgerInv P s

/-- One step keeps the tree in order. -/
theorem TreeInv.step (h : TreeInv P s) (hstep : Step P s s') : TreeInv P s' := by
  cases hstep with
  | @accept pprev block files nFile nBlockPos _ _ _ hprev hnew hhash hcheck hcontext hwrite =>
    have hwf := h.files.writeToDisk hwrite
    have hsub := writeToDisk_sub hwrite
    have hread := readBlock_of_writeToDisk h.files hwrite
    obtain ⟨hkind, htime⟩ := CBlock.acceptBlockContext_eq_ok hcontext
    -- the new block has been checked on top of its parent
    have hnewOk : TreeOk P files (block.newIndex P pprev nFile nBlockPos :: pprev) :=
      TreeOk.accepted ((h.treeOk _ hprev).mono hwf hsub) hread
        (CBlock.checked_of_checkBlock hcheck) hkind htime
    refine ⟨hwf, ?_, ?_, ?_, List.mem_cons_of_mem _ h.tip_mem⟩
    · exact List.forall_mem_cons.mpr ⟨hnewOk, fun p hp => (h.treeOk p hp).mono hwf hsub⟩
    · intro e p hp hne
      rcases List.mem_cons.mp hp with heq | hp
      · cases heq
        exact List.mem_cons_of_mem _ hprev
      · exact List.mem_cons_of_mem _ (h.closed e p hp hne)
    · -- its hash is not in the tree yet
      intro p hp q hq heq
      rcases List.mem_cons.mp hp with rfl | hp
      · rcases List.mem_cons.mp hq with rfl | hq
        · rfl
        · exact absurd heq.symm (hnew q hq)
      · rcases List.mem_cons.mp hq with rfl | hq
        · exact absurd heq (hnew p hp)
        · exact h.unique p hp q hq heq
  | store hwrite =>
    have hwf := h.files.writeToDisk hwrite
    exact ⟨hwf, fun p hp => (h.treeOk p hp).mono hwf (writeToDisk_sub hwrite), h.closed, h.unique,
      h.tip_mem⟩
  | connect hmem hread hconnect => exact ⟨h.files, h.treeOk, h.closed, h.unique, hmem⟩
  | disconnect htip hne hread hdisconnect =>
    exact ⟨h.files, h.treeOk, h.closed, h.unique, h.closed _ _ (htip ▸ h.tip_mem) hne⟩

/-- And the index in agreement with the ledger. -/
theorem LedgerInv.step (h : LedgerInv P s) (ht : TreeInv P s) (hstep : Step P s s') :
    LedgerInv P s' := by
  cases hstep with
  | accept hprev hnew hhash hcheck hcontext hwrite =>
    obtain ⟨hindex, hvalid, hsupply, hbound⟩ :=
      h.of_files ht (ht.files.writeToDisk hwrite) (writeToDisk_sub hwrite)
    exact ⟨hindex, hvalid, hsupply, hbound⟩
  | store hwrite => exact h.of_files ht (ht.files.writeToDisk hwrite) (writeToDisk_sub hwrite)
  | connect hmem hread hconnect => exact h.connect ht hmem hread hconnect
  | disconnect htip hne hread hdisconnect => exact h.disconnect ht htip hne hread hdisconnect

/-- **The invariant holds in every reachable state.** -/
theorem Reachable.inv (h : Reachable P s) : Inv P s := by
  induction h with
  | refl => exact ⟨TreeInv.init P, LedgerInv.init P⟩
  | tail _ hstep ih => exact ⟨ih.tree.step hstep, ih.ledger.step ih.tree hstep⟩

/-! ### Running the machine -/

/-- Accept a block on the tip and connect it, at clock time `nAdjustedTime`: two steps of the
machine, computed. -/
def extend (P : Params) (nAdjustedTime : Int) (s : ChainState) (block : CBlock) :
    Option ChainState :=
  if block.hashPrevBlock = s.tip.hash ∧ s.tree.all (fun p => p.hash ≠ block.getHash P) then
    match block.checkBlock P nAdjustedTime,
      block.acceptBlockContext P s.tip.nHeight nAdjustedTime s.tip, s.files.writeToDisk block with
    | .ok (), .ok (), some (files, nFile, nBlockPos) =>
      let pindex := block.newIndex P s.tip nFile nBlockPos
      let s₁ := s.accepted P s.tip block files nFile nBlockPos
      match block.connectChecks P (s₁.env ∅ s.tip.nHeight) nAdjustedTime pindex s.tip with
      | .ok st => some (s₁.connected P (s₁.env ∅ s.tip.nHeight) pindex block st)
      | .error _ => none
    | _, _, _ => none
  else none

/-- What a block that extends the chain has passed. -/
theorem extend_eq_some {nAdjustedTime : Int} {block : CBlock}
    (he : s.extend P nAdjustedTime block = some s') :
    ∃ files nFile nBlockPos st,
      (block.hashPrevBlock = s.tip.hash ∧ ∀ p ∈ s.tree, p.hash ≠ block.getHash P) ∧
      block.checkBlock P nAdjustedTime = .ok () ∧
      block.acceptBlockContext P s.tip.nHeight nAdjustedTime s.tip = .ok () ∧
      s.files.writeToDisk block = some (files, nFile, nBlockPos) ∧
      block.connectChecks P
          ((s.accepted P s.tip block files nFile nBlockPos).env ∅ s.tip.nHeight) nAdjustedTime
          (block.newIndex P s.tip nFile nBlockPos) s.tip = .ok st ∧
      s' = (s.accepted P s.tip block files nFile nBlockPos).connected P
        ((s.accepted P s.tip block files nFile nBlockPos).env ∅ s.tip.nHeight)
        (block.newIndex P s.tip nFile nBlockPos) block st := by
  unfold ChainState.extend at he
  split_ifs at he with hnew
  split at he
  · next files nFile nBlockPos hcheck hcontext hwrite =>
    simp only at he
    split at he
    · next st hconnect =>
      cases he
      exact ⟨files, nFile, nBlockPos, st, ⟨hnew.1, by simpa using hnew.2⟩, hcheck, hcontext, hwrite,
        hconnect, rfl⟩
    · exact absurd he (by simp)
  · exact absurd he (by simp)

/-- Such a block leads to a reachable state. -/
theorem Reachable.extend {nAdjustedTime : Int} {block : CBlock} (h : Reachable P s)
    (he : s.extend P nAdjustedTime block = some s') : Reachable P s' := by
  obtain ⟨files, nFile, nBlockPos, st, hnew, hcheck, hcontext, hwrite, hconnect, rfl⟩ :=
    extend_eq_some he
  refine (h.tail (Step.accept h.inv.tree.tip_mem hnew.2 hnew.1 hcheck hcontext hwrite)).tail
    (Step.connect List.mem_cons_self ?_ hconnect)
  exact readBlock_of_writeToDisk h.inv.tree.files hwrite

/-- `DisconnectBlock` of one block after the other, as far as it concerns the index. -/
def disconnectBlocks (P : Params) : List CBlock → TxIndexMap → Result TxIndexMap
  | [], txIndex => .ok txIndex
  | block :: blocks, txIndex => do
    let txIndex ← block.disconnectIndex P txIndex
    disconnectBlocks P blocks txIndex

end ChainState

/-! ### A sample network

Parameters small enough to compute with: the hash of a transaction is read off its time and its
first input, that of a block is its time, and every signature is good. -/

namespace Sample

def params : Params where
  fTestNet := true
  hashTx tx := 1 + tx.nTime + 2 ^ 64 * ((tx.vin.head?.map (fun txin => txin.prevout.hash)).getD 0)
  hashHeader _ _ _ nTime _ _ := nTime
  hashPair a b := a + b
  hash160 _ := List.replicate 20 0
  hash160_length _ := rfl
  verifyKey _ _ _ := true
  verifyScript _ _ _ _ _ := true

/-- A pay-to-pubkey script. -/
def keyScript : CScript := (33 : UInt8) :: List.replicate 33 2 ++ [OP_CHECKSIG]

/-- A coinbase `n` seconds after genesis. -/
def coinBase (n : ℕ) : CTransaction where
  nTime := params.nTimeGenesis + n
  vin := [⟨COutPoint.null, [1, 1], UINT_MAX⟩]
  vout := [⟨2000000, keyScript⟩]

/-- A proof-of-work block `n` seconds after genesis. -/
def blockOn (pprev : BlockPtr) (n : ℕ) (vtx : List CTransaction) : CBlock where
  hashPrevBlock := pprev.hash
  hashMerkleRoot := CBlock.merkleRoot params vtx.length (vtx.map params.hashTx)
  nTime := params.nTimeGenesis + n
  nBits := getNextTargetRequired params pprev false
  nNonce := 0
  vtx := vtx
  vchBlockSig := [1]

/-- Extend the chain by a block `n` seconds after genesis. -/
def extendBy (n : ℕ) (vtx : List CTransaction) (s : ChainState) : Option ChainState :=
  s.extend params 2000000000 (blockOn s.tip n vtx)

/-- `n` blocks with nothing but a coinbase. -/
def chain : ℕ → Option ChainState
  | 0 => some (ChainState.init params)
  | n + 1 => (chain n).bind (extendBy (n + 1) [coinBase (n + 1)])

/-- And so for the sample blocks. -/
theorem reachable_extendBy {n : ℕ} {vtx : List CTransaction} {s s' : ChainState}
    (h : ChainState.Reachable params s) (he : extendBy n vtx s = some s') :
    ChainState.Reachable params s' :=
  h.extend he

/-- The sample chain is reachable. -/
theorem reachable_chain {n : ℕ} {s : ChainState} (h : chain n = some s) :
    ChainState.Reachable params s := by
  induction n generalizing s with
  | zero =>
    cases h
    exact Relation.ReflTransGen.refl
  | succ n ih =>
    obtain ⟨s₀, hs₀, he⟩ := Option.bind_eq_some_iff.mp h
    exact reachable_extendBy (ih hs₀) he

/-- Spends the coinbase of the first block. -/
def spendFirst : CTransaction where
  nTime := params.nTimeGenesis + 61
  vin := [⟨⟨params.hashTx (coinBase 1), 0⟩, [], UINT_MAX⟩]
  vout := [⟨1900000, keyScript⟩]

/-- The coinbase of the first block is spent as soon as it has matured, and the block after that
has the same coinbase again. -/
def reusedHash : Option (ChainState × ChainState × ChainState) := do
  let s₁ ← chain 60
  let s₂ ← extendBy 61 [coinBase 61, spendFirst] s₁
  let s₃ ← extendBy 62 [coinBase 1] s₂
  pure (s₁, s₂, s₃)

/-- The sample chain with a coinbase used twice. -/
theorem reusedHash_eq_some {s₁ s₂ s₃ : ChainState} (h : reusedHash = some (s₁, s₂, s₃)) :
    ChainState.Reachable params s₁ ∧ extendBy 61 [coinBase 61, spendFirst] s₁ = some s₂ ∧
      extendBy 62 [coinBase 1] s₂ = some s₃ := by
  simp only [reusedHash, Option.bind_eq_bind, Option.bind_eq_some_iff, Option.pure_def,
    Option.some.injEq, Prod.mk.injEq] at h
  obtain ⟨s₁', h₁, s₂', h₂, s₃', h₃, rfl, rfl, rfl⟩ := h
  exact ⟨reachable_chain h₁, h₂, h₃⟩

/-- The run goes through, the spending transaction is connected, and the last two blocks cannot be
disconnected. -/
theorem reusedHash_run : reusedHash.map (fun s =>
    (((connectedTxs s.2.2.files s.2.2.tip)[61]?).map ConnectedTx.tx,
      (ChainState.disconnectBlocks params [blockOn s.2.1.tip 62 [coinBase 1],
        blockOn s.1.tip 61 [coinBase 61, spendFirst]] s.2.2.txIndex).isOk)) =
    some (some spendFirst, false) := by
  decide +kernel

end Sample

end Peershares
