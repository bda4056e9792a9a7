import Peershares.Dividend.Snapshot

/-!
# The payees of a dividend

Every key of a balance map is what `ExtractAddress` left in its result: an address, or the unset one
when the script has no address. `Distribute` makes a Peercoin address of each key whose payout is high
enough, and for the unset one that conversion fails an assertion.

* `Addressed.getAddressBalances` — the keys of a balance map
* `distributeRound_isOk`, `distributeRound_assertion` — one round of `Distribute`
* `distribute_payees_iff` — when every payee is a real address
-/

open Framework

namespace Peershares

/-! ### The keys of a balance map -/

/-- Every key is an address or the unset one. -/
def Addressed (P : Params) (m : BalanceMap) : Prop :=
  ∀ addr v, m.lookup addr = some v → addr = {} ∨ CBitcoinAddress.IsSet P addr

section

variable {P : Params} {files : BlockFiles} {txIndex : TxIndexMap} {m m' : BalanceMap}

/-- The address of a script is set, or it is the empty one. -/
theorem addressOf_cases (scriptPubKey : CScript) :
    addressOf P scriptPubKey = {} ∨ CBitcoinAddress.IsSet P (addressOf P scriptPubKey) := by
  unfold addressOf
  cases h : extractAddress P scriptPubKey with
  | none => exact Or.inl rfl
  | some addr => exact Or.inr (isSet_of_extractAddress h)

/-- The empty map. -/
theorem Addressed.empty : Addressed P ∅ := by
  intro addr v h
  rw [Map.lookup_empty] at h
  exact absurd h (by simp)

/-- Setting the balance of a script's address. -/
theorem Addressed.insert (h : Addressed P m) (scriptPubKey : CScript) (v : Int) :
    Addressed P (m.insert (addressOf P scriptPubKey) v) := by
  intro addr w hl
  rw [Map.lookup_insert_eq] at hl
  split_ifs at hl with heq
  · rw [heq]
    exact addressOf_cases scriptPubKey
  · exact h addr w hl

/-- Taking off from it. -/
theorem Addressed.sub (h : Addressed P m) (scriptPubKey : CScript) (v : Int) :
    Addressed P (m.sub (addressOf P scriptPubKey) v) := by
  unfold BalanceMap.sub
  split_ifs
  · intro addr w hl
    rw [Map.lookup_erase_eq] at hl
    split_ifs at hl
    exact h addr w hl
  · exact h.insert _ _

/-- The loop over the inputs. -/
theorem Addressed.scanInputs {vin : List CTxIn} (h : Addressed P m)
    (hscan : scanInputs P files txIndex vin m = .ok m') : Addressed P m' := by
  induction vin generalizing m with
  | nil =>
    cases hscan
    exact h
  | cons txi vin ih =>
    obtain ⟨m₁, hfirst, hrest⟩ := Result.bind_eq_ok.mp hscan
    refine ih ?_ hrest
    unfold scanInput at hfirst
    split at hfirst
    · exact absurd hfirst (by simp)
    · split at hfirst
      · exact absurd hfirst (by simp)
      · simp only at hfirst
        split_ifs at hfirst
        · cases hfirst
          exact h.sub _ _
        · cases hfirst
          exact h

/-- The loop over the outputs. -/
theorem Addressed.scanOutputs {vout : List CTxOut} (h : Addressed P m) :
    Addressed P (vout.foldl (scanOutput P) m) := by
  induction vout generalizing m with
  | nil => exact h
  | cons txo vout ih =>
    refine ih ?_
    unfold scanOutput
    split_ifs
    · exact h.insert _ _
    · exact h

/-- The loop over the transactions. -/
theorem Addressed.scanTransactions {vtx : List CTransaction} (h : Addressed P m)
    (hscan : scanTransactions P files txIndex vtx m = .ok m') : Addressed P m' := by
  induction vtx generalizing m with
  | nil =>
    cases hscan
    exact h
  | cons tx vtx ih =>
    obtain ⟨m₁, hinputs, hrest⟩ := Result.bind_eq_ok.mp hscan
    refine ih (Addressed.scanOutputs ?_) hrest
    unfold scanTransactionInputs at hinputs
    split_ifs at hinputs
    · cases hinputs
      exact h
    · exact h.scanInputs hinputs

/-- And the loop over the blocks. -/
theorem Addressed.scanBlocks {g : Globals} {cutoffTime nRounds : ℕ} {pblk0 : BlockPtr}
    (h : Addressed P m) (hscan : scanBlocks P g txIndex cutoffTime nRounds pblk0 m = .ok m') :
    Addressed P m' := by
  induction nRounds generalizing pblk0 m with
  | zero => exact absurd hscan (by simp [Peershares.scanBlocks])
  | succ nRounds ih =>
    unfold Peershares.scanBlocks at hscan
    split_ifs at hscan
    · cases hscan
      exact h
    · split at hscan
      · exact absurd hscan (by simp)
      · split_ifs at hscan
        · cases hscan
          exact h
        · obtain ⟨m₁, hblock, hrest⟩ := Result.bind_eq_ok.mp hscan
          exact ih (h.scanTransactions hblock) hrest

/-- **The keys of a balance map**, whatever the chain. -/
theorem Addressed.getAddressBalances {g : Globals} {cutoffTime : ℕ}
    (h : getAddressBalances P g txIndex cutoffTime = .ok m) : Addressed P m := by
  unfold Peershares.getAddressBalances at h
  split at h
  · exact absurd h (by simp)
  · exact absurd h (by simp)
  · split_ifs at h
    exact Addressed.empty.scanBlocks h

end

/-! ### One round -/

section

variable {D : Type} [Double D] {P : Params} {dAmount dMin dTotal : D}
  {entries : List (CBase58Data × Int)}

/-- The address of a distribution stands for its share address. -/
def Distribution.Real (P : Params) (x : Distribution D) : Prop :=
  CBitcoinAddress.IsSet P x.addrPeershares ∧
    CPeercoinAddress.StandsFor P x.addrPeercoin x.addrPeershares

/-- The unset address is paid: its payout is not below the minimum. -/
def PaysUnset (dAmount dMin dTotal : D) (entries : List (CBase58Data × Int)) : Prop :=
  ∃ e ∈ entries, e.1 = {} ∧ Double.lt (payout dAmount dTotal e.2) dMin = false

/-- A round that does not pay the unset address drops it, and makes only real distributions. -/
theorem distributeRound_isOk {d : DividendDistributor D}
    (hset : ∀ e ∈ entries, e.1 = {} ∨ CBitcoinAddress.IsSet P e.1)
    (hunset : ¬ PaysUnset dAmount dMin dTotal entries)
    (hd : ∀ x ∈ d.vDistribution, x.Real P) :
    ∃ retained d', distributeRound P dAmount dMin dTotal entries d = .ok (retained, d') ∧
      (∀ e ∈ retained, CBitcoinAddress.IsSet P e.1) ∧ ∀ x ∈ d'.vDistribution, x.Real P := by
  induction entries generalizing d with
  | nil => exact ⟨[], d, rfl, by simp, hd⟩
  | cons e entries ih =>
    obtain ⟨addr, nBalance⟩ := e
    obtain ⟨hfirst, hrest⟩ := List.forall_mem_cons.mp hset
    have hunset' : ¬ PaysUnset dAmount dMin dTotal entries := by
      rintro ⟨e, he, hpays⟩
      exact hunset ⟨e, List.mem_cons_of_mem _ he, hpays⟩
    rw [distributeRound]
    by_cases hlow : Double.lt (payout dAmount dTotal nBalance) dMin = true
    · -- below the minimum nothing is paid
      simp only [hlow, if_true]
      exact ih hrest hunset' hd
    · -- this one is paid, so it is not the unset address
      have haddr : CBitcoinAddress.IsSet P addr := by
        rcases hfirst with heq | haddr
        · exact absurd ⟨(addr, nBalance), List.mem_cons_self, heq, by simpa using hlow⟩ hunset
        · exact haddr
      obtain ⟨addrPeercoin, hconv, hstands⟩ := CPeercoinAddress.ofAddress_eq_ok haddr
      let x : Distribution D := ⟨addr, nBalance, addrPeercoin, payout dAmount dTotal nBalance⟩
      have hnew : Distribution.new P addr nBalance (payout dAmount dTotal nBalance) = .ok x :=
        Result.bind_eq_ok.mpr ⟨addrPeercoin, hconv, rfl⟩
      obtain ⟨retained, d', hround, hretained, hd'⟩ := ih (d := ⟨d.vDistribution ++ [x],
        Double.add d.dTotalDistributed (payout dAmount dTotal nBalance)⟩) hrest hunset' (by
          intro y hy
          rcases List.mem_append.mp hy with hy | hy
          · exact hd y hy
          · rw [List.mem_singleton.mp hy]
            exact ⟨haddr, hstands⟩)
      refine ⟨(addr, nBalance) :: retained, d', ?_, List.forall_mem_cons.mpr ⟨haddr, hretained⟩, hd'⟩
      rw [if_neg hlow]
      exact Result.bind_eq_ok.mpr ⟨x, hnew, Result.bind_eq_ok.mpr ⟨_, hround, rfl⟩⟩

/-- A round that pays the unset address fails the assertion. -/
theorem distributeRound_assertion {d : DividendDistributor D}
    (hset : ∀ e ∈ entries, e.1 = {} ∨ CBitcoinAddress.IsSet P e.1)
    (hunset : PaysUnset dAmount dMin dTotal entries) :
    distributeRound P dAmount dMin dTotal entries d = .error .assertion := by
  induction entries generalizing d with
  | nil =>
    obtain ⟨e, he, -⟩ := hunset
    exact absurd he (by simp)
  | cons e entries ih =>
    obtain ⟨addr, nBalance⟩ := e
    obtain ⟨hfirst, hrest⟩ := List.forall_mem_cons.mp hset
    rw [distributeRound]
    by_cases hlow : Double.lt (payout dAmount dTotal nBalance) dMin = true
    · simp only [hlow, if_true]
      refine ih hrest ?_
      -- the unset address is paid, so it is not this one
      obtain ⟨e, he, heq, hpays⟩ := hunset
      rcases List.mem_cons.mp he with rfl | he
      · exact absurd hlow (by simp [hpays])
      · exact ⟨e, he, heq, hpays⟩
    · simp only [hlow]
      by_cases haddr : addr = {}
      · -- its conversion fails the assertion
        subst haddr
        rfl
      · -- the conversion of a real address goes on to the rest
        have haddr' : CBitcoinAddress.IsSet P addr := hfirst.resolve_left haddr
        obtain ⟨addrPeercoin, hconv, -⟩ := CPeercoinAddress.ofAddress_eq_ok haddr'
        have hunset' : PaysUnset dAmount dMin dTotal entries := by
          obtain ⟨e, he, heq, hpays⟩ := hunset
          rcases List.mem_cons.mp he with rfl | he
          · exact absurd heq haddr
          · exact ⟨e, he, heq, hpays⟩
        unfold Distribution.new
        rw [hconv]
        change (distributeRound P dAmount dMin dTotal entries _ >>= _) = _
        rw [ih hrest hunset']
        rfl

/-! ### All rounds -/

/-- When all addresses are set, none without is paid. -/
theorem not_paysUnset {entries : List (CBase58Data × Int)}
    (hset : ∀ e ∈ entries, CBitcoinAddress.IsSet P e.1) : ¬ PaysUnset dAmount dMin dTotal entries := by
  rintro ⟨e, he, heq, -⟩
  exact (hset e he).ne_unset heq

/-- When the first round does not pay the unset address, `Distribute` comes to an end with real
distributions only. -/
theorem distributeLoop_isOk (hset : ∀ e ∈ entries, e.1 = {} ∨ CBitcoinAddress.IsSet P e.1)
    (hunset : ¬ PaysUnset dAmount dMin (totalBalance entries) entries) :
    ∃ d, distributeLoop P dAmount dMin entries = .ok d ∧ ∀ x ∈ d.vDistribution, x.Real P := by
  induction hn : entries.length using Nat.strong_induction_on generalizing entries with
  | _ n ih =>
    obtain ⟨retained, d, hround, hretained, hd⟩ := distributeRound_isOk
      (d := ⟨[], Double.ofInt64 0⟩) hset hunset (by simp)
    rw [distributeLoop, hround]
    simp only
    split_ifs with hless
    · exact ih retained.length (hn ▸ hless) (fun e he => Or.inr (hretained e he))
        (not_paysUnset hretained) rfl
    · exact ⟨d, rfl, hd⟩

/-- Paying an address that is not set fails the assertion of `ToString`. -/
theorem distributeLoop_assertion (hset : ∀ e ∈ entries, e.1 = {} ∨ CBitcoinAddress.IsSet P e.1)
    (hunset : PaysUnset dAmount dMin (totalBalance entries) entries) :
    distributeLoop P dAmount dMin entries = .error .assertion := by
  rw [distributeLoop, distributeRound_assertion hset hunset]

/-- The sorted rows are the entries of the map. -/
theorem mem_sorted {m : BalanceMap} {e : CBase58Data × Int} :
    e ∈ m.sorted ↔ m.lookup e.1 = some e.2 := by
  unfold BalanceMap.sorted
  rw [(List.perm_insertionSort _ _).mem_iff, List.mem_map]
  constructor
  · rintro ⟨x, hx, rfl⟩
    exact AList.mem_lookup_iff.mpr hx
  · intro h
    exact ⟨⟨e.1, e.2⟩, AList.mem_lookup_iff.mp h, rfl⟩

/-- `Distribute` fails the assertion when it pays the unset address. -/
theorem distribute_assertion {m : BalanceMap}
    (hset : ∀ e ∈ m.sorted, e.1 = {} ∨ CBitcoinAddress.IsSet P e.1) {nBalance : Int}
    (hl : m.lookup {} = some nBalance)
    (hlow : Double.lt (payout dAmount (totalBalance m.sorted) nBalance) dMin = false) :
    distribute P dAmount dMin m = .error .assertion := by
  have hunset : PaysUnset dAmount dMin (totalBalance m.sorted) m.sorted :=
    ⟨({}, nBalance), mem_sorted.mpr hl, rfl, hlow⟩
  have hne : m.entries.isEmpty = false := by
    rw [List.isEmpty_eq_false_iff]
    exact List.ne_nil_of_mem (AList.mem_lookup_iff.mp hl)
  unfold distribute
  rw [hne, distributeLoop_assertion hset hunset]
  rfl

/-! ### The payees -/

/-- Every payee is a real address: the assertion is not reached, each distribution has a Peercoin
address for its share address, and no two share addresses have the same one. -/
def PayeesReal (P : Params) (dAmount dMin : D) (m : BalanceMap) : Prop :=
  distribute P dAmount dMin m ≠ .error .assertion ∧
  ∀ d : DividendDistributor D, distribute P dAmount dMin m = .ok d →
    (∀ x ∈ d.vDistribution, CPeercoinAddress.StandsFor P x.addrPeercoin x.addrPeershares) ∧
    ∀ x ∈ d.vDistribution, ∀ y ∈ d.vDistribution, x.addrPeercoin = y.addrPeercoin →
      x.addrPeershares = y.addrPeershares

/-- **When every payee is a real address**: the map has no balance for the unset address, or its
payout is below the minimum. -/
theorem distribute_payees_iff {g : Globals} {txIndex : TxIndexMap} {cutoffTime : ℕ} {m : BalanceMap}
    (hm : getAddressBalances P g txIndex cutoffTime = .ok m) (dAmount dMin : D) :
    PayeesReal P dAmount dMin m ↔ ∀ nBalance, m.lookup {} = some nBalance →
      Double.lt (payout dAmount (totalBalance m.sorted) nBalance) dMin = true := by
  have hset : ∀ e ∈ m.sorted, e.1 = {} ∨ CBitcoinAddress.IsSet P e.1 :=
    fun e he => Addressed.getAddressBalances hm e.1 e.2 (mem_sorted.mp he)
  constructor
  · rintro ⟨halive, -⟩ nBalance hl
    by_contra hlow
    exact halive (distribute_assertion hset hl (by simpa using hlow))
  · intro hlow
    have hunset : ¬ PaysUnset dAmount dMin (totalBalance m.sorted) m.sorted := by
      rintro ⟨⟨addr, nBalance⟩, he, rfl, hnot⟩
      exact absurd (hlow nBalance (mem_sorted.mp he)) (by simp [hnot])
    obtain ⟨d, hloop, hreal⟩ := distributeLoop_isOk hset hunset
    -- around the loop there are only tests, which throw another error
    have hcases : distribute P dAmount dMin m ≠ .error .assertion ∧
        ∀ d', distribute P dAmount dMin m = .ok d' → d' = d := by
      unfold distribute
      split_ifs
      · exact ⟨by simp, fun d' h => absurd h (by simp)⟩
      · rw [hloop]
        simp only [bind, Except.bind, pure, Except.pure]
        split_ifs
        · exact ⟨by simp, fun d' h => absurd h (by simp)⟩
        · exact ⟨by simp, fun d' h => (Except.ok.inj h).symm⟩
    refine ⟨hcases.1, fun d' hd' => ?_⟩
    rw [hcases.2 d' hd']
    refine ⟨fun x hx => (hreal x hx).2, fun x hx y hy heq => ?_⟩
    -- one key for two addresses would be one address
    have hstands := (hreal x hx).2
    rw [heq] at hstands
    exact hstands.injective (hreal y hy).2 (hreal x hx).1 (hreal y hy).1

end

namespace Sample

/-- A coinbase with an output to nobody in particular: anyone can spend it. -/
def anyoneCanSpend : CTransaction :=
  { coinBase 1 with vout := [⟨1500000, keyScript⟩, ⟨500000, [OP_1]⟩] }

/-- Two blocks, the first of which has that coinbase. -/
def nonstandard : Option Node :=
  ((arrive 0 1 [anyoneCanSpend] (loadGenesis params host {}).2).bind
    (Node.setBest params host (hashAt 1))).bind (arriveBest 1 2)

/-- The sample chain with a script that has no address. -/
theorem run_nonstandard {s : Node} (h : nonstandard = some s) : Node.Run params s := by
  obtain ⟨s₂, hs₂, h₂⟩ := Option.bind_eq_some_iff.mp h
  obtain ⟨s₁, hs₁, hset⟩ := Option.bind_eq_some_iff.mp hs₂
  have hstart : Node.Run params (loadGenesis params host {}).2 := Node.Run.start (H := host) rfl rfl
  exact run_arriveBest ((run_arrive hstart hs₁).setBest hset) h₂

/-- The balances below block 2. -/
def nonstandardBalances : Option BalanceMap :=
  nonstandard.bind (fun n => (getAddressBalances params n.toGlobals n.txdb.committed.txIndex
    (hashAt 2)).toOption)

end Sample

/-- A quarter of the shares is at an output without an address, so a quarter of the dividend is due to
the unset one. -/
theorem distribute_unset :
    ¬ ∀ (P : Params) (n : Node), Node.Run P n → ∀ (cutoffTime : ℕ) (m : BalanceMap),
      getAddressBalances P n.toGlobals n.txdb.committed.txIndex cutoffTime = .ok m →
      ∀ dAmount dMin : ℚ, PayeesReal P dAmount dMin m := by
  intro h
  have hbalance : Sample.nonstandardBalances.map (fun m => (m.lookup {},
      Double.lt (payout (100 : ℚ) (totalBalance m.sorted) 500000) (1 / 100))) =
      some (some 500000, false) := by
    decide +kernel
  obtain ⟨m, hm, heq⟩ := Option.map_eq_some_iff.mp hbalance
  obtain ⟨n, hn, hget⟩ := Option.bind_eq_some_iff.mp hm
  have hget := Result.eq_ok_of_toOption hget
  simp only [Prod.mk.injEq] at heq
  have hset : ∀ e ∈ m.sorted, e.1 = {} ∨ CBitcoinAddress.IsSet Sample.params e.1 :=
    fun e he => Addressed.getAddressBalances hget e.1 e.2 (mem_sorted.mp he)
  exact (h _ n (Sample.run_nonstandard hn) _ m hget 100 (1 / 100)).1
    (distribute_assertion hset heq.1 heq.2)

/-- Two blocks whose outputs all have addresses. -/
theorem distribute_payees_shareChain : ∃ n m, Sample.shareChain 3 = some n ∧
    getAddressBalances Sample.shareParams n.toGlobals n.txdb.committed.txIndex
      (Sample.params.nTimeGenesis + 3) = .ok m ∧
    PayeesReal Sample.shareParams (100 : ℚ) (1 / 100) m := by
  have hbalance : ((Sample.shareChain 3).bind (fun n => (getAddressBalances Sample.shareParams
      n.toGlobals n.txdb.committed.txIndex (Sample.params.nTimeGenesis + 3)).toOption.map (fun m =>
        (m.lookup {}).isNone))) = some true := by
    decide +kernel
  obtain ⟨n, hn, hsome⟩ := Option.bind_eq_some_iff.mp hbalance
  obtain ⟨m, hm, hnone⟩ := Option.map_eq_some_iff.mp hsome
  have hget := Result.eq_ok_of_toOption hm
  refine ⟨n, m, hn, hget, (distribute_payees_iff hget _ _).mpr ?_⟩
  intro nBalance hl
  rw [hl] at hnone
  exact absurd hnone (by simp)

end Peershares
