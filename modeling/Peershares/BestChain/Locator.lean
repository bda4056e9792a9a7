import Peershares.BestChain.Agreement
import Peershares.Model.Locator

/-!
# Locators find a near common block

A locator lists the blocks of a chain at the distances `0, 1, .., 10, 11, 13, 17, 25, ..` from its end, and
genesis. Another node walks down the list to the first block of its own main chain. The main chains of two
nodes have all blocks below their fork in common, so the walk stops at the first entry at or below the
fork, which is at most twice as far away.

`Set` and `GetDistanceBack` are two loops with the same step size, one over blocks and one over hashes. Both are
compared with the sequence of distances, which is strictly increasing and at most doubles
(`locatorDistance_strictMono`, `locatorDistance_succ_le`). Between two nodes nothing is known but that a hash
commits to the block before it (`CommitsToParent`); so equal hashes have equal chains below them
(`Globals.TreeInv.hashes_eq`), and the other node finds a block of the list just when it is at or below the fork
(`found_below_fork`, `not_found_above_fork`).

* `locatorDistance` — the distance of an entry, which `Set` and `GetDistanceBack` both count up
* `loop_setRound` — the entries of a locator
* `Globals.MainChain` — `IsInMainChain` tells the truth; kept by every run of a node (`Node.Run.mainChain`)
* `locator_finds_fork` — the block another node finds
* `locator_repeats_genesis` — a locator of genesis lists it twice
-/

open Framework Framework.Command

namespace Peershares

/-! ### The distances of the entries -/

/-- The distance of entry `k` from the end of the chain: single steps up to the entry at distance 11,
then doubled steps. -/
def locatorDistance (k : ℕ) : ℕ := if k ≤ 10 then k else 9 + 2 ^ (k - 10)

/-- The step after entry `k`. -/
def locatorStep (k : ℕ) : ℕ := 2 ^ (k - 10)

/-- The step doubles from the tenth entry on. -/
theorem locatorStep_succ (k : ℕ) : locatorStep (k + 1) = if 10 ≤ k then locatorStep k * 2 else locatorStep k := by
  unfold locatorStep
  split_ifs with hk
  · rw [show k + 1 - 10 = (k - 10) + 1 by omega, pow_succ]
  · rw [show k + 1 - 10 = 0 by omega, show k - 10 = 0 by omega]

/-- The next entry lies one step further back. -/
theorem locatorDistance_succ (k : ℕ) : locatorDistance (k + 1) = locatorDistance k + locatorStep k := by
  unfold locatorDistance locatorStep
  rcases Nat.lt_trichotomy k 10 with hk | rfl | hk
  · rw [if_pos (by omega), if_pos (by omega), show k - 10 = 0 by omega, pow_zero]
  · rfl
  · rw [if_neg (by omega), if_neg (by omega), show k + 1 - 10 = (k - 10) + 1 by omega, pow_succ]
    omega

/-- There is always a step back. -/
theorem locatorStep_pos (k : ℕ) : 0 < locatorStep k := Nat.two_pow_pos _

/-- So the entries go down. -/
theorem locatorDistance_strictMono : StrictMono locatorDistance := by
  refine strictMono_nat_of_lt_succ fun k => ?_
  rw [locatorDistance_succ]
  exact Nat.lt_add_of_pos_right (locatorStep_pos k)

/-- The next entry is at most about twice as far away. -/
theorem locatorDistance_succ_le (k : ℕ) : locatorDistance (k + 1) ≤ 2 * locatorDistance k + 1 := by
  unfold locatorDistance
  rcases Nat.lt_trichotomy k 10 with hk | rfl | hk
  · rw [if_pos (by omega), if_pos (by omega)]
    omega
  · decide
  · rw [if_neg (by omega), if_neg (by omega), show k + 1 - 10 = (k - 10) + 1 by omega, pow_succ]
    omega

/-- `GetDistanceBack` doubles its step at the same entries as `Set`. -/
theorem ten_lt_locatorDistance_succ (k : ℕ) : 10 < locatorDistance (k + 1) ↔ 10 ≤ k := by
  have hmono := locatorDistance_strictMono.lt_iff_lt (a := 10) (b := k + 1)
  rw [show locatorDistance 10 = 10 from rfl] at hmono
  rw [hmono]
  omega

/-! ### The entries of a locator -/

/-- The hash at entry `k` of the locator of a block. -/
def BlockPtr.locatorEntry (p : BlockPtr) (k : ℕ) : Uint256 := hash (p.drop (locatorDistance k))

/-- The first entry that would be below genesis. -/
theorem exists_nEntries (p : BlockPtr) : ∃ k, p.length ≤ locatorDistance k :=
  ⟨p.length, locatorDistance_strictMono.id_le p.length⟩

/-- The number of entries above the last one. -/
def BlockPtr.nEntries (p : BlockPtr) : ℕ := Nat.find (exists_nEntries p)

namespace BlockPtr

variable {p : BlockPtr} {k : ℕ}

/-- And reach the end of the chain. -/
theorem length_le_locatorDistance (p : BlockPtr) : p.length ≤ locatorDistance p.nEntries :=
  Nat.find_spec (exists_nEntries p)

/-- Before that they lie on it. -/
theorem locatorDistance_lt (h : k < p.nEntries) : locatorDistance k < p.length :=
  not_le.mp (Nat.find_min (exists_nEntries p) h)

/-- There are no more entries than blocks. -/
theorem nEntries_le (p : BlockPtr) : p.nEntries ≤ p.length :=
  Nat.find_min' _ (locatorDistance_strictMono.id_le p.length)

end BlockPtr

namespace CBlockLocator

variable {p : BlockPtr} {k fuel : ℕ}

/-- A round of `Set` at entry `k`. -/
theorem setRound_entry (h : k < p.nEntries) :
    setRound ⟨p.drop (locatorDistance k), locatorStep k, (List.range k).map p.locatorEntry⟩ =
      .inl ⟨p.drop (locatorDistance (k + 1)), locatorStep (k + 1), (List.range (k + 1)).map p.locatorEntry⟩ := by
  obtain ⟨e, q, heq⟩ := List.exists_cons_of_ne_nil
    (List.ne_nil_of_length_pos (l := p.drop (locatorDistance k)) (by
      rw [List.length_drop]
      exact Nat.sub_pos_of_lt (BlockPtr.locatorDistance_lt h)))
  have hentry : p.locatorEntry k = e.hashBlock := by
    unfold BlockPtr.locatorEntry
    rw [heq]
    rfl
  have hvHave : (List.range k).map p.locatorEntry ++ [e.hashBlock] = (List.range (k + 1)).map p.locatorEntry := by
    rw [List.range_succ, List.map_append, List.map_singleton, hentry]
  unfold setRound
  simp only [heq]
  rw [← heq, hvHave, List.drop_drop, ← locatorDistance_succ, List.length_map, List.length_range,
    locatorStep_succ]
  simp only [Nat.lt_succ_iff]

/-- **`Set` lists the blocks at the distances of the entries**, and returns. -/
theorem loop_setRound (hk : k ≤ p.nEntries) (hfuel : p.nEntries - k < fuel) :
    loop setRound fuel ⟨p.drop (locatorDistance k), locatorStep k, (List.range k).map p.locatorEntry⟩ =
      some ((List.range p.nEntries).map p.locatorEntry) := by
  induction fuel generalizing k with
  | zero => exact absurd hfuel (Nat.not_lt_zero _)
  | succ fuel ih =>
    rcases Nat.lt_or_eq_of_le hk with hlt | rfl
    · rw [loop_continue (setRound_entry hlt)]
      exact ih hlt (by omega)
    · refine loop_break ?_
      rw [List.drop_eq_nil_of_le (BlockPtr.length_le_locatorDistance p)]
      rfl

/-- **`CBlockLocator::Set`** lists the entries and then the genesis block. -/
theorem set_eq (P : Params) (hfuel : p.length < fuel) :
    set P fuel p = some ⟨(List.range p.nEntries).map p.locatorEntry ++ [P.hashGenesisBlock]⟩ := by
  have hloop := @loop_setRound p 0 fuel (Nat.zero_le _)
    (by have := p.nEntries_le; omega)
  unfold set
  rw [show ({ pindex := p } : SetState) =
    ⟨p.drop (locatorDistance 0), locatorStep 0, (List.range 0).map p.locatorEntry⟩ from rfl, hloop]
  rfl

/-! ### Walking down the list -/

/-- The other node has the block with this hash in its main chain. -/
def Found (g : Globals) (hash : Uint256) (q : BlockPtr) : Prop :=
  g.mapBlockIndex.lookup hash = some q ∧ g.isInMainChain q = true

variable {g : Globals} {hash : Uint256} {q : BlockPtr} {before after : List Uint256}

/-- The loop of `GetBlockIndex` stops at an entry of the main chain. -/
theorem blockIndexFrom_cons_found (h : Found g hash q) : blockIndexFrom g (hash :: after) = q := by
  rw [blockIndexFrom, h.1]
  simp [h.2]

/-- And passes over any other. -/
theorem blockIndexFrom_cons_skip (h : ∀ q, ¬ Found g hash q) :
    blockIndexFrom g (hash :: after) = blockIndexFrom g after := by
  rw [blockIndexFrom]
  cases hlookup : g.mapBlockIndex.lookup hash with
  | none => rfl
  | some q =>
    have hout : ¬ g.isInMainChain q = true := fun hmain => h q ⟨hlookup, hmain⟩
    simp [hout]

/-- **`GetBlockIndex`** takes the first entry that is found. -/
theorem blockIndexFrom_append (hbefore : ∀ hash ∈ before, ∀ q, ¬ Found g hash q) (h : Found g hash q) :
    blockIndexFrom g (before ++ hash :: after) = q := by
  induction before with
  | nil => exact blockIndexFrom_cons_found h
  | cons x before ih =>
    rw [List.cons_append, blockIndexFrom_cons_skip (hbefore x (by simp))]
    exact ih fun y hy => hbefore y (by simp [hy])

/-- The loop of `GetDistanceBack` counts what it passes over. -/
theorem distanceBackFrom_cons_skip {nDistance nStep : ℕ} (h : ∀ q, ¬ Found g hash q) :
    distanceBackFrom g (hash :: after) nDistance nStep =
      distanceBackFrom g after (nDistance + nStep)
        (if 10 < nDistance + nStep then nStep * 2 else nStep) := by
  rw [distanceBackFrom]
  cases hlookup : g.mapBlockIndex.lookup hash with
  | none => rfl
  | some q =>
    have hout : ¬ g.isInMainChain q = true := fun hmain => h q ⟨hlookup, hmain⟩
    simp [hout]

/-- **`GetDistanceBack`** keeps up with the distances of the entries. -/
theorem distanceBackFrom_eq {j : ℕ} (hskip : ∀ i, k ≤ i → i < k + j → ∀ q, ¬ Found g (p.locatorEntry i) q)
    (h : Found g (p.locatorEntry (k + j)) q) :
    distanceBackFrom g ((List.range' k j).map p.locatorEntry ++ p.locatorEntry (k + j) :: after)
      (locatorDistance k) (locatorStep k) = locatorDistance (k + j) := by
  induction j generalizing k with
  | zero =>
    rw [Nat.add_zero] at h
    rw [List.range'_zero, List.map_nil, List.nil_append, Nat.add_zero, distanceBackFrom, h.1]
    simp [h.2]
  | succ j ih =>
    have hnext : k + (j + 1) = k + 1 + j := by omega
    rw [List.range'_succ, List.map_cons, List.cons_append,
      distanceBackFrom_cons_skip (hskip k (le_refl _) (by omega)), ← locatorDistance_succ, hnext]
    simp only [ten_lt_locatorDistance_succ]
    rw [← locatorStep_succ]
    rw [hnext] at h
    exact ih (fun i hi hij => hskip i (by omega) (by omega)) h

end CBlockLocator

/-! ### Two nodes -/

/-- A block hash commits to the hash of the parent. -/
def CommitsToParent (P : Params) : Prop :=
  ∀ block block' : CBlock, block.getHash P = block'.getHash P → block.hashPrevBlock = block'.hashPrevBlock

/-- The main chain is the chain of the best block, and `IsInMainChain` tells the truth. -/
structure Globals.MainChain (P : Params) (g : Globals) : Prop where
  tree : g.TreeInv P
  best : g.InTree g.pindexBest
  links : ∀ p, g.InTree p → (g.isInMainChain p = true ↔ p <:+ g.pindexBest)

/-- The main chain of the node has a block with the hash of `p`, and with none of the hashes above. -/
structure IsForkDistance (g : Globals) (p : BlockPtr) (f : ℕ) : Prop where
  shared : ∃ q : BlockPtr, q ≠ [] ∧ q <:+ g.pindexBest ∧ q.hash = BlockPtr.hash (p.drop f)
  least : ∀ f' < f, ∀ q : BlockPtr, q ≠ [] → q <:+ g.pindexBest → q.hash ≠ BlockPtr.hash (p.drop f')

section Nodes

variable {P : Params} {m n : Globals} {p q : BlockPtr}

/-- Genesis is the block with the hash of genesis. -/
theorem Globals.TreeInv.eq_nil_iff {e : CBlockIndex} (h : m.TreeInv P) (hin : m.InTree (e :: p)) :
    p = [] ↔ e.hashBlock = P.hashGenesisBlock := by
  have hsuffix := (h.treeOk _ hin).genesis_suffix
  have hgenesis : m.InTree [P.genesisIndex] := h.suffix hin hsuffix (by simp)
  constructor
  · rintro rfl
    have heq := hsuffix.eq_of_length rfl
    rw [← (List.cons.inj heq).1]
    rfl
  · intro hhash
    exact (List.cons.inj (hin.unique hgenesis hhash)).2

/-- One hash, one chain of hashes. -/
theorem Globals.TreeInv.hashes_eq (hcommit : CommitsToParent P) (hm : m.TreeInv P) (hn : n.TreeInv P)
    (hp : m.InTree p) (hq : n.InTree q) (h : p.hash = q.hash) :
    p.map CBlockIndex.hashBlock = q.map CBlockIndex.hashBlock := by
  induction p generalizing q with
  | nil => exact absurd rfl (hm.ne_nil hp)
  | cons e p ih =>
    cases q with
    | nil => exact absurd rfl (hn.ne_nil hq)
    | cons e' q =>
      have hhead : e.hashBlock = e'.hashBlock := h
      have hnil : p = [] ↔ q = [] := by
        rw [hm.eq_nil_iff hp, hn.eq_nil_iff hq, hhead]
      rw [List.map_cons, List.map_cons, hhead]
      by_cases hpne : p = []
      · rw [hpne, hnil.mp hpne]
      · have hqne : q ≠ [] := fun hq => hpne (hnil.mpr hq)
        -- the stored blocks have one hash, and with it one parent
        obtain ⟨block, hread, -⟩ := (hm.treeOk _ hp).cons_inv hpne
        obtain ⟨block', hread', -⟩ := (hn.treeOk _ hq).cons_inv hqne
        have hparent := hcommit block block' (by rw [hm.getHash_eq hp hread, hn.getHash_eq hq hread', hhead])
        rw [(hm.stored e p block hp hpne hread).1, (hn.stored e' q block' hq hqne hread').1] at hparent
        rw [ih (hm.closed e p hp hpne) (hn.closed e' q hq hqne) hparent]

/-- The part of a chain below a block with a common hash is common. -/
theorem Globals.TreeInv.hash_drop_eq (hcommit : CommitsToParent P) (hm : m.TreeInv P) (hn : n.TreeInv P)
    (hp : m.InTree p) (hq : n.InTree q) (h : p.hash = q.hash) (d : ℕ) :
    BlockPtr.hash (p.drop d) = BlockPtr.hash (q.drop d) := by
  have hhashes := congrArg (List.drop d) (hm.hashes_eq hcommit hn hp hq h)
  rw [← List.map_drop, ← List.map_drop] at hhashes
  cases hpd : p.drop d with
  | nil =>
    rw [hpd, List.map_nil] at hhashes
    rw [List.map_eq_nil_iff.mp hhashes.symm]
  | cons e r =>
    rw [hpd] at hhashes
    cases hqd : q.drop d with
    | nil =>
      rw [hqd] at hhashes
      exact absurd hhashes (by simp)
    | cons e' r' =>
      rw [hqd, List.map_cons, List.map_cons] at hhashes
      exact (List.cons.inj hhashes).1

namespace Globals.MainChain

/-- Every part of the main chain is in the tree. -/
theorem inTree (h : n.MainChain P) (hs : q <:+ n.pindexBest) (hne : q ≠ []) : n.InTree q :=
  h.tree.suffix h.best hs hne

/-- A hash is found exactly when it is that of a block of the main chain. -/
theorem found_iff (h : n.MainChain P) {hash : Uint256} :
    CBlockLocator.Found n hash q ↔ q ≠ [] ∧ q <:+ n.pindexBest ∧ q.hash = hash := by
  constructor
  · rintro ⟨hlookup, hmain⟩
    have hhash := h.tree.keyed _ _ hlookup
    have hin : n.InTree q := by
      unfold Globals.InTree
      rw [hhash]
      exact hlookup
    exact ⟨h.tree.ne_nil hin, (h.links q hin).mp hmain, hhash⟩
  · rintro ⟨hne, hs, rfl⟩
    have hin := h.inTree hs hne
    exact ⟨hin, (h.links q hin).mpr hs⟩

/-- Genesis is in every main chain. -/
theorem genesis_suffix (h : n.MainChain P) : [P.genesisIndex] <:+ n.pindexBest :=
  (h.tree.treeOk _ h.best).genesis_suffix

/-- The genesis block is always found. -/
theorem found_genesis (h : n.MainChain P) :
    CBlockLocator.Found n P.hashGenesisBlock [P.genesisIndex] :=
  h.found_iff.mpr ⟨by simp, h.genesis_suffix, rfl⟩

/-- There is a fork, at genesis at the latest. -/
theorem exists_isForkDistance (h : n.MainChain P) (hm : m.TreeInv P) (hp : m.InTree p) :
    ∃ f < p.length, IsForkDistance n p f := by
  obtain ⟨s, hs⟩ := (hm.treeOk p hp).genesis_suffix
  have hshared : ∃ f, ∃ q : BlockPtr, q ≠ [] ∧ q <:+ n.pindexBest ∧ q.hash = BlockPtr.hash (p.drop f) := by
    refine ⟨s.length, [P.genesisIndex], by simp, h.genesis_suffix, ?_⟩
    rw [← hs, List.drop_left]
  classical
  refine ⟨Nat.find hshared, ?_, Nat.find_spec hshared, ?_⟩
  · have hle : Nat.find hshared ≤ s.length := by
      refine Nat.find_min' hshared ⟨[P.genesisIndex], by simp, h.genesis_suffix, ?_⟩
      rw [← hs, List.drop_left]
    have hlen := congrArg List.length hs
    rw [List.length_append, List.length_singleton] at hlen
    omega
  · intro f' hlt q hne hq hhash
    exact Nat.find_min hshared hlt ⟨q, hne, hq, hhash⟩

/-- Below the fork the main chain has all blocks of the other chain. -/
theorem found_below_fork (hcommit : CommitsToParent P) (h : n.MainChain P) (hm : m.TreeInv P) (hp : m.InTree p)
    {f d : ℕ} (hf : IsForkDistance n p f) (hfd : f ≤ d) (hd : d < p.length) :
    ∃ q, CBlockLocator.Found n (BlockPtr.hash (p.drop d)) q ∧
      q.map CBlockIndex.hashBlock = (p.drop d).map CBlockIndex.hashBlock := by
  obtain ⟨q, hne, hs, hhash⟩ := hf.shared
  have hpf : m.InTree (p.drop f) :=
    hm.suffix hp (List.drop_suffix f p) (List.ne_nil_of_length_pos (by rw [List.length_drop]; omega))
  have hhashes := h.tree.hashes_eq hcommit hm (h.inTree hs hne) hpf hhash
  have hdrop : (q.drop (d - f)).map CBlockIndex.hashBlock = (p.drop d).map CBlockIndex.hashBlock := by
    rw [List.map_drop, hhashes, ← List.map_drop, List.drop_drop, Nat.add_sub_cancel' hfd]
  have hlen := congrArg List.length hdrop
  rw [List.length_map, List.length_map, List.length_drop (l := p)] at hlen
  refine ⟨q.drop (d - f), h.found_iff.mpr ⟨?_, (List.drop_suffix _ _).trans hs, ?_⟩, hdrop⟩
  · exact List.ne_nil_of_length_pos (by omega)
  · have hsame := h.tree.hash_drop_eq hcommit hm (h.inTree hs hne) hpf hhash (d - f)
    rw [List.drop_drop, Nat.add_sub_cancel' hfd] at hsame
    exact hsame

/-- Above the fork it has none. -/
theorem not_found_above_fork (h : n.MainChain P) {f d : ℕ} (hf : IsForkDistance n p f) (hd : d < f) :
    ∀ q, ¬ CBlockLocator.Found n (BlockPtr.hash (p.drop d)) q := by
  intro q hfound
  obtain ⟨hne, hs, hhash⟩ := h.found_iff.mp hfound
  exact hf.least d hd q hne hs hhash

end Globals.MainChain

/-- What another node makes of a locator: `GetBlockIndex` is a block of its main chain, and the one at
distance `d` in the chain of the locator's block; it is at most twice as far away as the fork, and unless it
was found as the last entry, `GetDistanceBack` is that distance. -/
structure FindsFork (g : Globals) (p : BlockPtr) (locator : CBlockLocator) (f d : ℕ) : Prop where
  main : g.isInMainChain (locator.getBlockIndex g) = true
  suffix : locator.getBlockIndex g <:+ g.pindexBest
  lt : d < p.length
  ancestor : (locator.getBlockIndex g).map CBlockIndex.hashBlock = (p.drop d).map CBlockIndex.hashBlock
  fork : IsForkDistance g p f
  le : f ≤ d
  near : d ≤ 2 * f
  distanceBack : (∃ hash ∈ locator.vHave.dropLast, ∃ q, CBlockLocator.Found g hash q) →
    locator.getDistanceBack g = d

/-- The locator of a block: entries at growing distances, and genesis. -/
def BlockPtr.locator (P : Params) (p : BlockPtr) : CBlockLocator :=
  ⟨(List.range p.nEntries).map p.locatorEntry ++ [P.hashGenesisBlock]⟩

/-- An entry above the last one is the first that is found. -/
theorem FindsFork.of_entry (hcommit : CommitsToParent P) (hm : m.TreeInv P) (hn : n.MainChain P)
    (hp : m.InTree p) {f k : ℕ} (hf : IsForkDistance n p f) (hk : k < p.nEntries) (hle : f ≤ locatorDistance k)
    (habove : ∀ i < k, locatorDistance i < f) : FindsFork n p (p.locator P) f (locatorDistance k) := by
  have hd := BlockPtr.locatorDistance_lt hk
  obtain ⟨q, hfound, hhashes⟩ := hn.found_below_fork hcommit hm hp hf hle hd
  obtain ⟨hne, hs, -⟩ := hn.found_iff.mp hfound
  -- the entries above the fork are not found
  have hskip : ∀ i < k, ∀ q, ¬ CBlockLocator.Found n (p.locatorEntry i) q :=
    fun i hi => hn.not_found_above_fork hf (habove i hi)
  -- so the search passes over them and ends at entry `k`
  obtain ⟨after, hsplit⟩ : ∃ after, (p.locator P).vHave =
      (List.range' 0 k).map p.locatorEntry ++ p.locatorEntry k :: after := by
    obtain ⟨j, hj⟩ := Nat.exists_eq_add_of_lt hk
    refine ⟨(List.range' (k + 1) j).map p.locatorEntry ++ [P.hashGenesisBlock], ?_⟩
    unfold BlockPtr.locator
    rw [List.range_eq_range', hj, Nat.add_assoc, ← List.range'_append, List.range'_succ]
    simp
  have hindex : (p.locator P).getBlockIndex n = q := by
    unfold CBlockLocator.getBlockIndex
    rw [hsplit]
    refine CBlockLocator.blockIndexFrom_append ?_ hfound
    intro hash hhash
    obtain ⟨i, hi, rfl⟩ := List.mem_map.mp hhash
    exact hskip i (by simpa using hi)
  have hdistance : (p.locator P).getDistanceBack n = locatorDistance k := by
    unfold CBlockLocator.getDistanceBack
    rw [hsplit]
    have heq : CBlockLocator.distanceBackFrom n
        ((List.range' 0 k).map p.locatorEntry ++ p.locatorEntry (0 + k) :: after) (locatorDistance 0) (locatorStep 0) =
          locatorDistance (0 + k) :=
      CBlockLocator.distanceBackFrom_eq (fun i _ hi => hskip i (by omega)) (by rw [Nat.zero_add]; exact hfound)
    rw [Nat.zero_add] at heq
    exact heq
  -- the block that is found, where it lies, and how far back
  refine ⟨?_, ?_, hd, ?_, hf, hle, ?_, fun _ => hdistance⟩
  · rw [hindex]
    exact hfound.2
  · rw [hindex]
    exact hs
  · rw [hindex]
    exact hhashes
  · -- the entry before lies above the fork
    cases k with
    | zero => exact Nat.zero_le _
    | succ k =>
      have hnext := locatorDistance_succ_le k
      have hlt := habove k (Nat.lt_succ_self k)
      omega

/-- No entry above the last one is found: genesis is. -/
theorem FindsFork.of_genesis (hm : m.TreeInv P) (hn : n.MainChain P) (hp : m.InTree p) {f : ℕ}
    (hf : IsForkDistance n p f) (hlt : f < p.length) (habove : ∀ k < p.nEntries, locatorDistance k < f) :
    FindsFork n p (p.locator P) f (p.length - 1) := by
  -- every other entry is beyond the fork
  have hskip : ∀ hash ∈ (List.range p.nEntries).map p.locatorEntry, ∀ q, ¬ CBlockLocator.Found n hash q := by
    intro hash hhash
    obtain ⟨k, hk, rfl⟩ := List.mem_map.mp hhash
    exact hn.not_found_above_fork hf (habove k (List.mem_range.mp hk))
  have hindex : (p.locator P).getBlockIndex n = [P.genesisIndex] :=
    CBlockLocator.blockIndexFrom_append hskip hn.found_genesis
  obtain ⟨s, hs⟩ := (hm.treeOk p hp).genesis_suffix
  refine ⟨?_, ?_, by omega, ?_, hf, by omega, ?_, ?_⟩
  · rw [hindex]
    exact hn.found_genesis.2
  · rw [hindex]
    exact hn.genesis_suffix
  · rw [hindex, ← hs, List.length_append, List.length_singleton, Nat.add_sub_cancel, List.drop_left]
  · -- the last entry above genesis is nearer than the fork, and the next one would be below genesis
    have hlen := p.length_le_locatorDistance
    cases hn : p.nEntries with
    | zero =>
      rw [hn] at hlen
      exact absurd hlen (by rw [show locatorDistance 0 = 0 from rfl]; omega)
    | succ k =>
      rw [hn] at hlen
      have hnext := locatorDistance_succ_le k
      have hnear := habove k (by omega)
      omega
  · rintro ⟨hash, hhash, q, hq⟩
    unfold BlockPtr.locator at hhash
    rw [List.dropLast_concat] at hhash
    exact absurd hq (hskip hash hhash q)

/-- **A locator finds a near common block.** `Set` returns for every block of a block tree. It lists the
blocks at strictly growing distances, and genesis after them. On any node with the same genesis block,
`GetBlockIndex` is a block of the main chain and of the chain of the locator's block, at most twice as far
away as the fork, and `GetDistanceBack` is its distance. -/
theorem locator_finds_fork (P : Params) (hcommit : CommitsToParent P) (m n : Globals) (hm : m.TreeInv P)
    (hn : n.MainChain P) (p : BlockPtr) (hp : m.InTree p) :
    (∀ fuel, p.length < fuel → CBlockLocator.set P fuel p = some (p.locator P)) ∧
    (∃ distances : List ℕ, distances.Pairwise (· < ·) ∧ (∀ d ∈ distances, d < p.length) ∧
      (p.locator P).vHave = distances.map (fun d => BlockPtr.hash (p.drop d)) ++ [P.hashGenesisBlock]) ∧
    [P.genesisIndex] <:+ p ∧
    ∃ f d, FindsFork n p (p.locator P) f d := by
  refine ⟨fun fuel hfuel => CBlockLocator.set_eq P hfuel, ?_, (hm.treeOk p hp).genesis_suffix, ?_⟩
  · -- the distances of the entries, which grow
    refine ⟨(List.range p.nEntries).map locatorDistance, ?_, ?_, ?_⟩
    · rw [List.pairwise_map]
      exact (List.pairwise_lt_range).imp fun h => locatorDistance_strictMono h
    · intro d hd
      obtain ⟨k, hk, rfl⟩ := List.mem_map.mp hd
      exact BlockPtr.locatorDistance_lt (List.mem_range.mp hk)
    · rw [List.map_map]
      rfl
  · obtain ⟨f, hlt, hf⟩ := hn.exists_isForkDistance hm hp
    refine ⟨f, ?_⟩
    -- the first entry at the fork or below it, or genesis when there is none
    by_cases hentry : ∃ k, k < p.nEntries ∧ f ≤ locatorDistance k
    · classical
      obtain ⟨hk, hle⟩ := Nat.find_spec hentry
      refine ⟨_, FindsFork.of_entry hcommit hm hn hp hf hk hle fun i hi => ?_⟩
      by_contra hge
      exact Nat.find_min hentry hi ⟨hi.trans hk, not_lt.mp hge⟩
    · refine ⟨_, FindsFork.of_genesis hm hn hp hf hlt fun k hk => ?_⟩
      by_contra hge
      exact hentry ⟨k, hk, not_lt.mp hge⟩

end Nodes

/-! ### The main chain of a running node -/

section Runs

variable {P : Params} {H : Host} {block : CBlock} {pindex : CBlockIndex} {pprev pindexNew q : BlockPtr}
  {n n' : Node}

/-- "New best block": the links end at it. -/
theorem LinkedBelow.extended {txIndex : TxIndexMap} {d' : TxDbData} (h : LinkedBelow n.pnext pprev)
    (hext : Extended P H block pindex pprev n txIndex n' d') : LinkedBelow n'.pnext (pindex :: pprev) := by
  have hg := hext.globals
  unfold Globals.setNext at hg
  rw [if_neg (by simpa using hext.pprev_ne)] at hg
  rw [hg]
  exact h.extend hext.pprev_ne

/-- A switch of the chain links the new branch. -/
theorem LinkedBelow.switched {pfork : BlockPtr} {txIndex : TxIndexMap} {d' : TxDbData}
    (h : LinkedBelow n.pnext n.pindexBest) (ht : n.TreeInv P) (hbest : n.InTree n.pindexBest)
    (hswitched : Switched P H q pfork n txIndex n' d') : LinkedBelow n'.pnext q := by
  obtain ⟨hfb, hfq, hne⟩ := BlockPtr.findFork_eq_ok hswitched.fork
  obtain ⟨mempool, hg⟩ := hswitched.globals
  rw [relink_eq] at hg
  rw [hg]
  exact h.relink ht hbest hfb hfq hne

/-- The loop over the postponed blocks moves the end of the links up. -/
theorem linkedBelow_connectPostponed (h : Agrees P n) (hin : n.InTree pindexNew) (hs : q <:+ pindexNew)
    (hn' : ConnectedTo P n.toGlobals q n') (hb : LinkedBelow n'.pnext q) :
    Triple (connectPostponed P H (BlockPtr.above q pindexNew).reverse) n'
      (fun fComplete n'' => fComplete = true → LinkedBelow n''.pnext pindexNew) (fun _ _ => True) := by
  -- while `row` is left to connect, the links end at the block below it
  refine (connectPostponed_rule (F := fun _ => True) (X := fun _ _ => True)
    (I := fun row n₁ => ∃ q : BlockPtr, q <:+ pindexNew ∧ row = (BlockPtr.above q pindexNew).reverse ∧
      ConnectedTo P n.toGlobals q n₁ ∧ LinkedBelow n₁.pnext q)
    (fun _ _ _ _ => trivial) ?_ ⟨q, hs, rfl, hn', hb⟩).mono ?_ (fun _ _ _ => trivial)
  · rintro pindex pprev row n₁ block ⟨q, hs, hrow, hn₁, hb₁⟩ hread
    rcases BlockPtr.above_reverse_cases hs with ⟨-, heq⟩ | ⟨e, hes, heq⟩
    · rw [heq] at hrow
      exact absurd hrow (by simp)
    · rw [heq] at hrow
      cases hrow
      have hs₁ : Store.InTxn { n₁.toStore with txdb := n₁.txdb.txnBegin } n₁.txdb.committed
          n₁.txdb.committed := by
        unfold Store.InTxn CTxDB.txnBegin CTxDB.view
        rw [hn₁.vTxn]
        rfl
      refine (setBestChainInner_spec hs₁).mono ?_ (fun e _ _ => ?_)
      · rintro _ n₂ ⟨d', hne, hg, htxdb, hbest, hindex, hw⟩
        rw [hn₁.files] at hread
        obtain ⟨hstored, hhash⟩ := readFromDisk_eq_ok hread
        have hext : Extended P H block pindex pprev n₁ n₁.txdb.committed.txIndex n₂ d' :=
          ⟨hne, hg, htxdb, hbest, hindex, hw⟩
        exact ⟨pindex :: pprev, hes, rfl,
          hn₁.extend h.tree (h.tree.suffix hin hes (by simp)) hstored hhash hext, hb₁.extended hext⟩
      · split_ifs
  · rintro fComplete n₂ hI rfl
    obtain ⟨q, hs, hrow, -, hb₂⟩ := hI
    rcases BlockPtr.above_reverse_cases hs with ⟨rfl, -⟩ | ⟨e, -, heq⟩
    · exact hb₂
    · rw [heq] at hrow
      exact absurd hrow (by simp)

/-- One call of `SetBestChain`. -/
theorem linkedBelow_setBestChain (h : Agrees P n) (hb : LinkedBelow n.pnext n.pindexBest)
    (hin : n.InTree (pindex :: pprev)) (hread : n.files.readBlock pindex.nFile pindex.nBlockPos = some block)
    (hconnect : PostponedConnect P H (pindex :: pprev) n) :
    Triple (setBestChain P H block (pindex :: pprev)) n (fun _ n' => LinkedBelow n'.pnext n'.pindexBest)
      (fun e n' => e ≠ .assertion → LinkedBelow n'.closeTxDb.pnext n'.closeTxDb.pindexBest) := by
  have htxdb : n.txdb = ⟨n.txdb.committed, []⟩ := by
    rw [← h.vTxn]
  refine setBestChain_rule htxdb ?_ ?_ ?_ ?_ ?_
  · intro n' hstarted
    exact absurd hstarted.genesis.1 h.genesis
  · -- a block on the tip
    rintro _ _ n' d' hnew hprev hext
    cases hnew
    have hpprev := h.tree.closed _ _ hin hext.pprev_ne
    obtain ⟨hstored, -⟩ := h.tree.stored _ _ _ hin hext.pprev_ne hread
    -- its parent is the best block, as there is one block under a hash
    have hbest : pprev = n.pindexBest :=
      hpprev.unique h.best (hstored.symm.trans (hprev.trans h.agreement.pindexBest.symm))
    subst hbest
    change LinkedBelow n'.pnext (pindex :: n.pindexBest)
    exact hb.extended hext
  · -- a reorganization
    intro q pfork n' d' hq hrun hswitched
    obtain ⟨hsuffix, hqne⟩ := BlockPtr.postpone_suffix n.pindexBest.bnChainTrust (pindex :: pprev)
    rw [← hq] at hsuffix hqne
    have hqin := h.tree.suffix hin hsuffix (hqne (by simp))
    have hn' := h.connectedTo.switch h.tree h.best hqin hswitched
    have hall := hconnect n' (by rw [← hq]; exact hrun)
    rw [BlockPtr.postpone_eq, ← hq] at hall
    have hrest := linkedBelow_connectPostponed (H := H) h hin hsuffix hn' (hb.switched h.tree h.best hswitched)
    -- no postponed block was refused, so all of them are linked
    refine (Triple.run.and hrest).mono ?_ ?_
    · rintro fComplete n₂ ⟨hrun₂, hlinked⟩
      rw [hrun₂] at hall
      exact hlinked (Except.ok.inj hall)
    · rintro e n₂ ⟨hrun₂, -⟩
      rw [hrun₂] at hall
      exact absurd hall (by simp)
  · -- a failed switch leaves the links
    intro e n' hrej _
    obtain ⟨bnBestInvalidTrust, hg⟩ := hrej.1.globals
    have hglobals : n'.closeTxDb.toGlobals = { n.toGlobals with bnBestInvalidTrust } := hg
    rw [hglobals]
    exact hb
  · intro n' hne
    exact absurd rfl hne

/-- So `pnext` links the main chain in every run. -/
theorem Node.Run.linkedBelow (hrun : Node.Run P n) : LinkedBelow n.pnext n.pindexBest := by
  induction hrun with
  | start hload hgenesis =>
    obtain ⟨hglobals, -⟩ := (loadGenesis_spec P _).of_ok hload
    rw [hglobals]
    intro hash hnext
    exact absurd rfl hnext
  | @step n n' hrun hstep ih =>
    cases hstep with
    | insert hprev hnew hcheck hcontext hwrite => exact ih
    | store hwrite => exact ih
    | @call H block pindex pprev r n₁ hin hread hconnect hcall halive =>
      have hset := linkedBelow_setBestChain (Agrees.of_run hrun) ih hin hread hconnect
      cases r with
      | ok fComplete =>
        have hlinked : LinkedBelow n₁.pnext n₁.pindexBest := hset.of_ok hcall
        exact hlinked
      | error e => exact hset.of_error hcall (fun heq => halive (by rw [heq]))
    | other hsame =>
      rw [hsame.pnext, hsame.pindexBest]
      exact ih

/-- **`IsInMainChain` tells the truth** in every state of a run. -/
theorem Node.Run.mainChain (hrun : Node.Run P n) : n.toGlobals.MainChain P := by
  have hagrees := Agrees.of_run hrun
  refine ⟨hagrees.tree, hagrees.best, fun p hp => ?_⟩
  simp only [Globals.isInMainChain, Bool.or_eq_true, Bool.not_eq_true', decide_eq_true_eq,
    List.isEmpty_eq_false_iff]
  constructor
  · rintro (hnext | rfl)
    · obtain ⟨e, q, hs, hne, hhash⟩ := hrun.linkedBelow p.hash hnext
      have hq := hagrees.tree.suffix hagrees.best ((List.suffix_cons e q).trans hs) hne
      rw [← hq.unique hp hhash]
      exact (List.suffix_cons e q).trans hs
    · exact List.suffix_rfl
  · intro hs
    rcases BlockPtr.above_reverse_cases hs with ⟨heq, -⟩ | ⟨e, hes, -⟩
    · exact Or.inr heq.symm
    · refine Or.inl ?_
      rw [hagrees.agreement.linked e p hes (hagrees.tree.ne_nil hp)]
      exact List.cons_ne_nil _ _

end Runs

/-! ### Two nodes on a fork -/

namespace Sample

/-- A block hash from which the parent can be read off. -/
def treeParams : Params :=
  { params with hashHeader := fun _ hashPrevBlock _ nTime _ _ => hashPrevBlock * 2 ^ 33 + (nTime % 2 ^ 32 + 1) }

/-- The sample hash commits to the parent. -/
theorem treeParams_commits : CommitsToParent treeParams := by
  have hdigits : ∀ a a' t t' : ℕ, a * 2 ^ 33 + (t % 2 ^ 32 + 1) = a' * 2 ^ 33 + (t' % 2 ^ 32 + 1) → a = a' := by
    intro a a' t t' h
    omega
  intro block block' h
  exact hdigits _ _ _ _ h

/-- One more block on the one with the given hash, `n` seconds after genesis. -/
def grow (hash : Uint256) (n : ℕ) (s : Node) : Option Node :=
  s.insertBlock treeParams 2000000000 (blockOn (s.blockPtr hash) n [coinBase n])

/-- The hash of a block `n` seconds after genesis, on a block with the given hash. -/
def hashOn (hash : Uint256) (n : ℕ) : Uint256 := hash * 2 ^ 33 + (treeParams.nTimeGenesis + n + 1)

def genesisHash : Uint256 := treeParams.hashGenesisBlock

/-- The peer: genesis and blocks 1 and 2. -/
def forkPeer : Option Node := do
  let s ← grow genesisHash 1 (loadGenesis treeParams host {}).2
  grow (hashOn genesisHash 1) 2 s

/-- Another node: genesis and blocks 1 and 3, of which block 3 is the best. -/
def forkNode : Option Node := do
  let s ← grow genesisHash 1 (loadGenesis treeParams host {}).2
  let s ← s.setBest treeParams host (hashOn genesisHash 1)
  let s ← grow (hashOn genesisHash 1) 3 s
  s.setBest treeParams host (hashOn (hashOn genesisHash 1) 3)

/-- The sample run at its start. -/
theorem run_treeStart : Node.Run treeParams (loadGenesis treeParams host {}).2 :=
  Node.Run.start (H := host) rfl rfl

/-- The peer of the sample. -/
theorem run_forkPeer {s : Node} (h : forkPeer = some s) : Node.Run treeParams s := by
  simp only [forkPeer, Option.bind_eq_bind, Option.bind_eq_some_iff] at h
  obtain ⟨s₁, h₁, h₂⟩ := h
  exact (run_treeStart.insertBlock h₁).insertBlock h₂

/-- And its node. -/
theorem run_forkNode {s : Node} (h : forkNode = some s) : Node.Run treeParams s := by
  simp only [forkNode, Option.bind_eq_bind, Option.bind_eq_some_iff] at h
  obtain ⟨s₁, h₁, s₂, h₂, s₃, h₃, h₄⟩ := h
  exact (((run_treeStart.insertBlock h₁).setBest h₂).insertBlock h₃).setBest h₄

end Sample

/-- The peer's block 2 forks off the main chain of the other node at block 1. -/
theorem locator_finds_fork_parent :
    ∃ (m n : Node) (p : BlockPtr), Node.Run Sample.treeParams m ∧ Node.Run Sample.treeParams n ∧
      m.InTree p ∧ p.length = 3 ∧ n.pindexBest.length = 3 ∧
      (∀ fuel, p.length < fuel →
        CBlockLocator.set Sample.treeParams fuel p = some (p.locator Sample.treeParams)) ∧
      ∃ f d, FindsFork n.toGlobals p (p.locator Sample.treeParams) f d := by
  have hpeer : Sample.forkPeer.map (fun s =>
      (((s.mapBlockIndex.lookup (Sample.hashOn (Sample.hashOn Sample.genesisHash 1) 2)).map fun p =>
        (p.hash, p.length)))) =
      some (some (Sample.hashOn (Sample.hashOn Sample.genesisHash 1) 2, 3)) := by
    decide +kernel
  have hother : Sample.forkNode.map (fun s => s.pindexBest.length) = some 3 := by
    decide +kernel
  obtain ⟨m, hm, hp⟩ := Option.map_eq_some_iff.mp hpeer
  obtain ⟨p, hlookup, hp⟩ := Option.map_eq_some_iff.mp hp
  obtain ⟨n, hn, hbest⟩ := Option.map_eq_some_iff.mp hother
  obtain ⟨hhash, hlen⟩ := Prod.mk.inj hp
  -- the peer's block is in its tree
  have hin : m.InTree p := by
    unfold Globals.InTree
    rw [hhash]
    exact hlookup
  have hfinds := locator_finds_fork Sample.treeParams Sample.treeParams_commits m.toGlobals n.toGlobals
    (Agrees.of_run (Sample.run_forkPeer hm)).tree (Sample.run_forkNode hn).mainChain p hin
  exact ⟨m, n, p, Sample.run_forkPeer hm, Sample.run_forkNode hn, hin, hlen, hbest, hfinds.1, hfinds.2.2.2⟩

/-- The locator of genesis lists genesis twice. -/
theorem locator_repeats_genesis :
    ¬ ∀ (P : Params) (g : Globals) (p : BlockPtr) (locator : CBlockLocator), g.TreeInv P → g.InTree p →
      CBlockLocator.set P (p.length + 1) p = some locator →
      ∃ distances : List ℕ, distances.Pairwise (· < ·) ∧ (∀ d ∈ distances, d < p.length) ∧
        locator.vHave = distances.map (fun d => BlockPtr.hash (p.drop d)) := by
  intro hclaim
  obtain ⟨distances, hpairwise, hlt, heq⟩ := hclaim Sample.treeParams Sample.treeParams.genesisGlobals
    [Sample.treeParams.genesisIndex] ⟨[Sample.genesisHash, Sample.genesisHash]⟩
    (genesisGlobals_treeInv _) (inTree_genesisGlobals.mpr rfl) rfl
  have hlen := congrArg List.length heq
  rw [List.length_map] at hlen
  match distances, hlen with
  | [d, d'], _ =>
    have hd := hlt d (by simp)
    have hd' := hlt d' (by simp)
    have hdd' := (List.pairwise_cons.mp hpairwise).1 d' (by simp)
    rw [List.length_singleton] at hd hd'
    omega

end Peershares
