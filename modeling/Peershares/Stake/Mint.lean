import Mathlib.Algebra.Group.Action.Defs
import Peershares.Model.CoinStake
import Peershares.Script.Solver
import Peershares.Stake.Reward
import Peershares.Stake.Stability
import Peershares.Wallet.CreateTransaction

/-!
# What is minted

A coinstake is made from a kernel and more coins of the same key, and pays out what they are worth with the
reward, less a fee. That it is a coinstake, meets the target of the kernel and earns no more than the reward
holds by the way it is made. `CheckTransaction` asks in addition that every output is at least a cent, and
half of a small stake is less than that.

The making has three stages, each with a statement about what it hands on. The search stops at a kernel that meets
its target (`MintKernel.Found`); more coins join it, old enough and of other transactions (`MintKernel.Joined`); and
the plan has the inputs, the credit and the decision to split (`MintPlan.Right`). Then the fee is raised round by
round until it covers the size of the transaction. A round changes only the fee, and the fee has a bound, since the
size has one (`MintPlan.Shape.size_le`, `MintInv.step`).

What `CheckTransaction` can object to is then a matter of the outputs alone (`checkTransaction_iff`), which together
are the credit less the fee.

* `MintEnv.findKernel_found`, `combine_joined` — the inputs
* `MintInv` — the rounds of the fee loop
* `MintPlan.Payable` — what the outputs of a round have to keep to
* `coinStake_valid_iff` — when a coinstake is valid
* `coinStake_halfCent` — a stake whose half is too small
-/

open Framework

namespace Peershares

/-! ### The kernel -/

section Kernel

variable {P : Params} {env : MintEnv} {nTime nTxPrevOffset nLeft n : ℕ} {setCoins : List PCoin}
variable {pcoin : PCoin} {block : CBlock} {kernel : MintKernel}

/-- The kernel is one of the coins, it is where the database says, and it meets the target. -/
structure MintKernel.Found (P : Params) (env : MintEnv) (nTime : ℕ) (setCoins : List PCoin)
    (kernel : MintKernel) : Prop where
  mem : kernel.pcoin ∈ setCoins
  index : ∃ txindex, env.connect.txIndex.lookup (P.hashTx kernel.pcoin.first) = some txindex ∧
    env.connect.files.readBlock txindex.pos.nFile txindex.pos.nBlockPos = some kernel.block ∧
    kernel.nTxPrevOffset = txindex.pos.nTxPos - txindex.pos.nBlockPos
  check : ∃ hashProofOfStake,
    env.checkKernel P nTime kernel.pcoin kernel.block kernel.nTxPrevOffset kernel.n = .ok hashProofOfStake
  script : env.stakeScript kernel.pcoin.scriptPubKey = some kernel.scriptPubKeyOut

/-- The loop over the seconds finds a kernel at one of them. -/
theorem MintEnv.searchBack_found
    (h : env.searchBack P nTime pcoin block nTxPrevOffset nLeft n = some kernel) :
    kernel.pcoin = pcoin ∧ kernel.block = block ∧ kernel.nTxPrevOffset = nTxPrevOffset ∧
      (∃ hash, env.checkKernel P nTime pcoin block nTxPrevOffset kernel.n = .ok hash) ∧
      env.stakeScript pcoin.scriptPubKey = some kernel.scriptPubKeyOut := by
  induction nLeft generalizing n with
  | zero => cases h
  | succ nLeft ih =>
    rw [searchBack] at h
    split_ifs at h with hshutdown
    split at h
    · exact ih h
    · next hash hcheck =>
      obtain ⟨script, hscript, rfl⟩ := Option.map_eq_some_iff.mp h
      exact ⟨rfl, rfl, rfl, ⟨hash, hcheck⟩, hscript⟩

/-- A kernel of the rest is a kernel of the row. -/
theorem MintKernel.Found.cons (h : kernel.Found P env nTime setCoins) :
    kernel.Found P env nTime (pcoin :: setCoins) :=
  ⟨List.mem_cons_of_mem _ h.mem, h.index, h.check, h.script⟩

/-- **The search** finds a kernel. -/
theorem MintEnv.findKernel_found (h : env.findKernel P nTime setCoins = some kernel) :
    kernel.Found P env nTime setCoins := by
  induction setCoins with
  | nil => cases h
  | cons pcoin setCoins ih =>
    rw [findKernel] at h
    split at h
    · -- a coin that is not in the index, not in the files or too young is passed over
      exact (ih h).cons
    · next txindex hindex =>
      split at h
      · exact (ih h).cons
      · next block hblock =>
        split at h
        · exact (ih h).cons
        · simp only at h
          split at h
          · -- the first time that meets the target ends the search
            next kernel' hsearch =>
            cases h
            obtain ⟨rfl, rfl, hoffset, hcheck, hscript⟩ := searchBack_found hsearch
            refine ⟨List.mem_cons_self, ⟨txindex, hindex, hblock, hoffset⟩, ?_, hscript⟩
            rw [hoffset]
            exact hcheck
          · split at h
            · cases h
            · exact (ih h).cons

end Kernel

/-! ### The script of the stake -/

/-- A script that pays to a public key is short. -/
theorem length_of_solver_pubKey {script : CScript} {vSolutions : List (List UInt8)}
    (h : solver script = (true, .TX_PUBKEY, vSolutions)) : 0 < script.length ∧ script.length ≤ 130 := by
  rcases solver_cases script with ⟨typeRet, vSolutions', heq, hform⟩ | ⟨_, _, _, heq, -⟩ | heq
  · rw [heq] at h
    cases h
    rcases hform with hform | ⟨opcode, -, rfl⟩
    · cases hform with
      | pubKey hpush hmin hmax =>
        have hlength := hpush.length_le
        rw [List.length_append, List.length_singleton]
        omega
    · simp
  · rw [heq] at h
    cases h
  · rw [heq] at h
    cases h

/-- What the wallet and the keys promise: the coins are outputs of wallet transactions, which have passed
`CheckTransaction`, as has every transaction on disk; and keys and signatures have the usual sizes. -/
structure MintEnv.Promises (P : Params) (env : MintEnv) : Prop where
  nodup : ∀ nTargetValue nSpendTime setCoins nValueIn,
    env.selectCoins nTargetValue nSpendTime = some (setCoins, nValueIn) → setCoins.Nodup
  coin : ∀ nTargetValue nSpendTime setCoins nValueIn,
    env.selectCoins nTargetValue nSpendTime = some (setCoins, nValueIn) → ∀ pcoin ∈ setCoins,
      pcoin.first.checkTransaction = .ok () ∧ ∃ txout, pcoin.txout? = some txout ∧ 0 < txout.nValue
  /-- The wallet has one transaction for a hash. -/
  hash : ∀ nTargetValue nSpendTime setCoins nValueIn,
    env.selectCoins nTargetValue nSpendTime = some (setCoins, nValueIn) → ∀ a ∈ setCoins, ∀ b ∈ setCoins,
      P.hashTx a.first = P.hashTx b.first → a.first = b.first
  files : FilesChecked env.connect.files
  pubKey : ∀ hash vchPubKey, env.getKey hash = some vchPubKey → vchPubKey.length ≤ 65
  signature : ∀ nRound tx pcoin nIn scriptSig,
    env.signSignature nRound tx pcoin nIn = some scriptSig → scriptSig.length ≤ 200

/-- The script of the output is not empty and not long. -/
theorem MintEnv.Promises.stakeScript {P : Params} {env : MintEnv} (henv : env.Promises P)
    {scriptPubKey scriptPubKeyOut : CScript} (h : env.stakeScript scriptPubKey = some scriptPubKeyOut) :
    0 < scriptPubKeyOut.length ∧ scriptPubKeyOut.length ≤ 200 := by
  unfold MintEnv.stakeScript at h
  split at h
  · next hsolver =>
    cases h
    have hlength := length_of_solver_pubKey hsolver
    omega
  · next vSolutions _ =>
    obtain ⟨vchPubKey, hkey, rfl⟩ := Option.map_eq_some_iff.mp h
    have hlength := henv.pubKey _ _ hkey
    have hpush : pushData vchPubKey = UInt8.ofNat vchPubKey.length :: vchPubKey := by
      unfold pushData
      rw [if_pos (by omega)]
    rw [List.length_append, hpush]
    simp only [List.length_cons, List.length_nil]
    omega
  · cases h

/-! ### More inputs -/

section Combine

variable {P : Params} {kernel : MintKernel} {nLimit nCredit : ℤ} {nTime : ℕ} {setCoins coins : List PCoin}

/-- The value of two rows of coins. -/
theorem valueOf_append (l l' : List PCoin) : valueOf (l ++ l') = valueOf l + valueOf l' := by
  unfold valueOf
  rw [List.map_append, List.sum_append]

/-- Coins of the list have joined: they are of other transactions than the kernel and old enough, and what
they are worth is added to the credit. -/
def MintKernel.Joined (P : Params) (kernel : MintKernel) (nTime : ℕ) (setCoins coins : List PCoin) (nCredit : ℤ)
    (r : List PCoin × ℤ) : Prop :=
  ∃ extras, r = (coins ++ extras, nCredit + valueOf extras) ∧ extras.Sublist setCoins ∧
    ∀ pcoin ∈ extras, P.hashTx pcoin.first ≠ P.hashTx kernel.pcoin.first ∧ tooYoung pcoin nTime = false

namespace MintKernel

variable {pcoin : PCoin} {r : List PCoin × ℤ}

/-- The loop over further coins may end at any of them. -/
theorem Joined.stop : kernel.Joined P nTime setCoins coins nCredit (coins, nCredit) := by
  refine ⟨[], ?_, List.nil_sublist _, by simp⟩
  simp [valueOf]

/-- It may pass over a coin. -/
theorem Joined.skip (h : kernel.Joined P nTime setCoins coins nCredit r) :
    kernel.Joined P nTime (pcoin :: setCoins) coins nCredit r := by
  obtain ⟨extras, heq, hsub, hall⟩ := h
  exact ⟨extras, heq, hsub.cons _, hall⟩

/-- Or take it in. -/
theorem Joined.join (hother : P.hashTx pcoin.first ≠ P.hashTx kernel.pcoin.first)
    (hold : tooYoung pcoin nTime = false)
    (h : kernel.Joined P nTime setCoins (coins ++ [pcoin]) (nCredit + pcoin.nValue) r) :
    kernel.Joined P nTime (pcoin :: setCoins) coins nCredit r := by
  obtain ⟨extras, heq, hsub, hall⟩ := h
  refine ⟨pcoin :: extras, ?_, hsub.cons_cons _, ?_⟩
  · rw [heq]
    simp only [List.append_assoc, List.singleton_append, valueOf, List.map_cons, List.sum_cons, add_assoc]
  · intro x hx
    rcases List.mem_cons.mp hx with rfl | hx
    · exact ⟨hother, hold⟩
    · exact hall x hx

/-- **More inputs** are coins that have joined. -/
theorem combine_joined :
    kernel.Joined P nTime setCoins coins nCredit (kernel.combine P nLimit nTime setCoins (coins, nCredit)) := by
  induction setCoins generalizing coins nCredit with
  | nil => exact Joined.stop
  | cons pcoin setCoins ih =>
    rw [combine]
    split_ifs with hsame hlimit hyoung
    · exact Joined.stop
    · exact ih.skip
    · rw [not_or, Bool.not_eq_true] at hyoung
      exact ih.join hsame.2 hyoung.2
    · exact ih.skip

end MintKernel

end Combine

/-! ### The plan -/

section Plan

variable {P : Params} {env : MintEnv} {base : CTransaction} {plan : MintPlan}

/-- The outputs of a stake that pays out so much. -/
def MintPlan.outputs (plan : MintPlan) (nPayout : ℤ) : List CTxOut :=
  if plan.fSplit then
    [CTxOut.empty, ⟨(nPayout.tdiv 2).tdiv CENT * CENT, plan.kernel.scriptPubKeyOut⟩,
      ⟨nPayout - (nPayout.tdiv 2).tdiv CENT * CENT, plan.kernel.scriptPubKeyOut⟩]
  else [CTxOut.empty, ⟨nPayout, plan.kernel.scriptPubKeyOut⟩]

/-- The coinstake that is planned: the kernel is the first input, and alone when the stake is split. -/
structure MintPlan.Right (P : Params) (env : MintEnv) (base : CTransaction) (plan : MintPlan) : Prop where
  selection : ∃ nTargetValue nSpendTime setCoins nValueIn,
    env.selectCoins nTargetValue nSpendTime = some (setCoins, nValueIn) ∧
    plan.kernel.Found P env base.nTime setCoins ∧ plan.coins.tail.Sublist setCoins
  coins : plan.coins = plan.kernel.pcoin :: plan.coins.tail
  nTime : plan.txNew.nTime = backDated base.nTime plan.kernel.n
  split : plan.fSplit = true ↔ (plan.txNew.nTime : ℤ) < plan.kernel.block.getBlockTime + nStakeSplitAge
  alone : plan.fSplit = true → plan.coins.tail = []
  extras : ∀ pcoin ∈ plan.coins.tail, P.hashTx pcoin.first ≠ P.hashTx plan.kernel.pcoin.first ∧
    tooYoung pcoin plan.txNew.nTime = false
  vin : plan.txNew.vin = plan.coins.map (PCoin.txin P)
  vout : ∃ nFirst nSecond, plan.txNew.vout = CTxOut.empty :: ⟨nFirst, plan.kernel.scriptPubKeyOut⟩ ::
    if plan.fSplit then [⟨nSecond, plan.kernel.scriptPubKeyOut⟩] else []
  credit : ∃ nCoinAge, plan.txNew.getCoinAge P env.connect = some nCoinAge ∧
    plan.nCredit = valueOf plan.coins + getProofOfStakeReward nCoinAge

/-- What the loop has taken in, by induction on the coins. -/
theorem MintKernel.inputs_joined {kernel : MintKernel} {nLimit : ℤ} {nTime : ℕ} {fSplit : Bool}
    {setCoins : List PCoin} :
    kernel.Joined P nTime setCoins [kernel.pcoin] kernel.pcoin.nValue
        (kernel.inputs P nLimit nTime fSplit setCoins) ∧
      (fSplit = true → (kernel.inputs P nLimit nTime fSplit setCoins).1 = [kernel.pcoin]) := by
  unfold inputs
  split_ifs with hs
  · exact ⟨Joined.stop, fun _ => rfl⟩
  · exact ⟨combine_joined, fun h => absurd h hs⟩

/-- The plan for a kernel that was found. -/
theorem MintEnv.planFor_right {kernel : MintKernel} {nTargetValue nValueIn nCredit : ℤ} {nTime nSpendTime : ℕ}
    {setCoins extras : List PCoin}
    (hselected : env.selectCoins nTargetValue nSpendTime = some (setCoins, nValueIn))
    (hfound : kernel.Found P env base.nTime setCoins) (htime : nTime = backDated base.nTime kernel.n)
    (hsub : extras.Sublist setCoins) (hall : ∀ pcoin ∈ extras,
      P.hashTx pcoin.first ≠ P.hashTx kernel.pcoin.first ∧ tooYoung pcoin nTime = false)
    (halone : fSplit kernel nTime = true → extras = []) (hcredit : nCredit = valueOf (kernel.pcoin :: extras))
    (h : env.planFor P kernel nTime (fSplit kernel nTime) (kernel.pcoin :: extras) nCredit base = .ok plan) :
    plan.Right P env base := by
  unfold planFor at h
  -- the split is decided at the backdated time
  generalize hsplit : fSplit kernel nTime = split at h halone
  simp only at h
  split at h
  · cases h
  next nCoinAge hage =>
  cases h
  refine ⟨⟨_, _, setCoins, nValueIn, hselected, hfound, hsub⟩, rfl, htime, ?_, halone, hall, rfl, ⟨0, 0, ?_⟩,
    nCoinAge, hage, ?_⟩
  · show split = true ↔ (nTime : ℤ) < kernel.block.getBlockTime + nStakeSplitAge
    rw [← hsplit, fSplit, decide_eq_true_eq]
  · cases split <;> rfl
  · rw [hcredit]

/-- The plan of `CreateCoinStake` is right. -/
theorem MintEnv.plan_right (h : env.plan P base = .ok plan) : plan.Right P env base := by
  unfold MintEnv.plan at h
  split at h
  · cases h
  next nReserveBalance _ =>
  split at h
  · cases h
  split at h
  · cases h
  next setCoins nValueIn hselected =>
  split at h
  · cases h
  next kernel hkernel =>
  split at h
  · cases h
  -- what is joined are coins of the selection, other than the kernel and old enough
  have hjoined := @MintKernel.inputs_joined P kernel (env.nBalance - nReserveBalance)
    (backDated base.nTime kernel.n) (fSplit kernel (backDated base.nTime kernel.n)) setCoins
  simp only at h
  obtain ⟨⟨extras, heq, hsub, hall⟩, halone⟩ := hjoined
  rw [heq] at h halone
  refine planFor_right hselected (findKernel_found hkernel) rfl hsub hall ?_ ?_ h
  · intro hs
    exact List.append_right_eq_self.mp (halone hs)
  · -- the credit is the value of the kernel and of what was joined
    show kernel.pcoin.nValue + valueOf extras = valueOf ([kernel.pcoin] ++ extras)
    rw [valueOf_append]
    simp [valueOf]

/-! ### The rounds -/

/-- A transaction has the inputs and the time of the plan, outputs for the kernel's script, and signatures
of the usual size. -/
structure MintPlan.Shape (P : Params) (plan : MintPlan) (tx : CTransaction) : Prop where
  prevouts : tx.vin.map CTxIn.prevout = plan.coins.map fun pcoin => (pcoin.txin P).prevout
  nTime : tx.nTime = plan.txNew.nTime
  vout : ∃ nFirst nSecond, tx.vout = CTxOut.empty :: ⟨nFirst, plan.kernel.scriptPubKeyOut⟩ ::
    if plan.fSplit then [⟨nSecond, plan.kernel.scriptPubKeyOut⟩] else []
  short : ∀ txin ∈ tx.vin, txin.scriptSig.length ≤ 200

/-- Signatures of the usual size are put in. -/
theorem signInputs_short {signSignature : CTransaction → PCoin → ℕ → Option CScript} {setCoins : List PCoin}
    {nIn : ℕ} {tx tx' : CTransaction}
    (hsign : ∀ tx pcoin nIn scriptSig, signSignature tx pcoin nIn = some scriptSig → scriptSig.length ≤ 200)
    (hshort : ∀ txin ∈ tx.vin, txin.scriptSig.length ≤ 200)
    (h : signInputs signSignature setCoins nIn tx = some tx') : ∀ txin ∈ tx'.vin, txin.scriptSig.length ≤ 200 := by
  induction setCoins generalizing nIn tx with
  | nil =>
    cases h
    exact hshort
  | cons pcoin setCoins ih =>
    rw [signInputs] at h
    split at h
    · cases h
    · next scriptSig hscript =>
      refine ih ?_ h
      intro txin htxin
      obtain ⟨i, hi⟩ := List.mem_iff_getElem?.mp htxin
      rw [List.getElem?_modify] at hi
      -- one input gets the new signature, the others have theirs
      obtain ⟨old, hold, rfl⟩ := Option.map_eq_some_iff.mp hi
      show (if nIn = i then ({ old with scriptSig } : CTxIn) else old).scriptSig.length ≤ 200
      split_ifs
      · exact hsign _ _ _ _ hscript
      · exact hshort old (List.mem_of_getElem? hold)

/-- The outputs are given their values. -/
theorem payStake_vout {tx : CTransaction} {nFirst nSecond : ℤ} (nPayout : ℤ)
    (h : tx.vout = CTxOut.empty :: ⟨nFirst, plan.kernel.scriptPubKeyOut⟩ ::
      if plan.fSplit then [⟨nSecond, plan.kernel.scriptPubKeyOut⟩] else []) :
    tx.payStake nPayout = { tx with vout := plan.outputs nPayout } := by
  unfold CTransaction.payStake MintPlan.outputs
  rw [h]
  cases plan.fSplit <;> rfl

/-- The outputs: an empty one, and one or two for the kernel's script. -/
theorem outputs_shape (nPayout : ℤ) : ∃ nFirst nSecond, plan.outputs nPayout =
    CTxOut.empty :: ⟨nFirst, plan.kernel.scriptPubKeyOut⟩ ::
      if plan.fSplit then [⟨nSecond, plan.kernel.scriptPubKeyOut⟩] else [] := by
  unfold MintPlan.outputs
  cases plan.fSplit with
  | false => exact ⟨nPayout, 0, rfl⟩
  | true => exact ⟨_, _, rfl⟩

/-- An input takes at most 241 bytes, and the rest less than a thousand. -/
theorem MintPlan.Shape.size_le {tx : CTransaction} (h : plan.Shape P tx)
    (hscript : plan.kernel.scriptPubKeyOut.length ≤ 200) :
    tx.getSerializeSize ≤ 241 * plan.coins.length + 457 := by
  -- the prefix of a list and a short string
  have hcompact : ∀ n : ℕ, getSizeOfCompactSize n ≤ 9 := by
    intro n
    unfold getSizeOfCompactSize
    split_ifs <;> omega
  have hsmall : ∀ v : List UInt8, v.length ≤ 200 → sizeOfBytes v ≤ 201 := by
    intro v hv
    unfold sizeOfBytes getSizeOfCompactSize
    rw [if_pos (by omega)]
    omega
  -- one input for each coin
  have hlength : tx.vin.length = plan.coins.length := by
    have hmap := congrArg List.length h.prevouts
    rwa [List.length_map, List.length_map] at hmap
  -- the inputs
  have hin : (tx.vin.map CTxIn.getSerializeSize).sum ≤ 241 * plan.coins.length := by
    have hle := List.sum_le_card_nsmul (tx.vin.map CTxIn.getSerializeSize) 241 (by
      intro x hx
      obtain ⟨txin, htxin, rfl⟩ := List.mem_map.mp hx
      have hsig := hsmall _ (h.short txin htxin)
      unfold CTxIn.getSerializeSize
      omega)
    rw [List.length_map, hlength, smul_eq_mul, mul_comm] at hle
    exact hle
  obtain ⟨nFirst, nSecond, hvout⟩ := h.vout
  have hempty : CTxOut.empty.getSerializeSize = 9 := rfl
  have hout : ∀ nValue, (⟨nValue, plan.kernel.scriptPubKeyOut⟩ : CTxOut).getSerializeSize ≤ 209 := by
    intro nValue
    have hbytes := hsmall _ hscript
    unfold CTxOut.getSerializeSize
    simp only
    omega
  -- the outputs: the empty one, and one or two payouts
  have houts : getSizeOfCompactSize tx.vout.length + (tx.vout.map CTxOut.getSerializeSize).sum ≤ 428 := by
    have hfirst := hout nFirst
    have hsecond := hout nSecond
    rw [hvout]
    cases plan.fSplit with
    | false =>
      simp only [Bool.false_eq_true, if_false, List.map_cons, List.map_nil, List.sum_cons, List.sum_nil, hempty,
        List.length_cons, List.length_nil]
      show 1 + _ ≤ _
      omega
    | true =>
      simp only [if_true, List.map_cons, List.map_nil, List.sum_cons, List.sum_nil, hempty,
        List.length_cons, List.length_nil]
      show 1 + _ ≤ _
      omega
  have hc := hcompact tx.vin.length
  unfold CTransaction.getSerializeSize
  omega

/-- The fee so far is at most a cent for each input but the first. -/
structure MintInv (P : Params) (plan : MintPlan) (s : MintRound) : Prop where
  shape : plan.Shape P s.txNew
  nonneg : 0 ≤ s.nMinFee
  le : s.nMinFee ≤ plan.coins.tail.length * CENT

/-- The fee loop begins with the plan. -/
theorem MintPlan.Right.start (h : plan.Right P env base) : MintInv P plan ⟨0, 0, plan.txNew⟩ := by
  refine ⟨⟨?_, rfl, h.vout, ?_⟩, le_rfl, mul_nonneg (by omega) (by decide)⟩
  · rw [h.vin, List.map_map]
    rfl
  · intro txin htxin
    rw [h.vin] at htxin
    obtain ⟨pcoin, -, rfl⟩ := List.mem_map.mp htxin
    exact Nat.zero_le _

/-- **A round** fails, or it signs a coinstake of the plan and compares the fees. -/
theorem MintEnv.round_cases {s : MintRound} (henv : env.Promises P) (h : MintInv P plan s) :
    (∃ e, env.round plan s = .inr (.error e)) ∨
      ∃ tx, plan.Shape P tx ∧ tx.vout = plan.outputs (plan.nCredit - s.nMinFee) ∧
        tx.getSerializeSize < MAX_BLOCK_SIZE_GEN / 5 ∧
        env.round plan s = if s.nMinFee < tx.getMinFee - MIN_TX_FEE then
          .inl ⟨s.nRound + 1, tx.getMinFee - MIN_TX_FEE, tx⟩ else .inr (.ok tx) := by
  obtain ⟨nFirst, nSecond, hvout⟩ := h.shape.vout
  unfold round
  rw [payStake_vout _ hvout]
  cases hsigned : signInputs (env.signSignature s.nRound) plan.coins 0
      { s.txNew with vout := plan.outputs (plan.nCredit - s.nMinFee) } with
  | none => exact Or.inl ⟨_, rfl⟩
  | some tx =>
    simp only
    by_cases hsize : MAX_BLOCK_SIZE_GEN / 5 ≤ tx.getSerializeSize
    · rw [if_pos hsize]
      exact Or.inl ⟨_, rfl⟩
    · -- signing changes the scripts of the inputs only
      have hunsigned := signInputs_unsigned hsigned
      have hout : tx.vout = plan.outputs (plan.nCredit - s.nMinFee) := by
        have heq := congrArg CTransaction.vout hunsigned
        exact heq
      rw [if_neg hsize]
      refine Or.inr ⟨tx, ⟨?_, ?_, ?_, ?_⟩, hout, not_le.mp hsize, rfl⟩
      · rw [← unsigned_prevouts, hunsigned, unsigned_prevouts]
        exact h.shape.prevouts
      · have heq := congrArg CTransaction.nTime hunsigned
        exact heq.trans h.shape.nTime
      · rw [hout]
        exact outputs_shape _
      · have hshort : ∀ txin ∈ ({ s.txNew with vout := plan.outputs (plan.nCredit - s.nMinFee) } :
            CTransaction).vin, txin.scriptSig.length ≤ 200 := h.shape.short
        exact signInputs_short (henv.signature s.nRound) hshort hsigned

/-- **The next round**, when the plan has an input. -/
theorem MintInv.step {s s' : MintRound} (henv : env.Promises P) (hne : plan.coins ≠ [])
    (hscript : plan.kernel.scriptPubKeyOut.length ≤ 200) (h : MintInv P plan s)
    (hround : env.round plan s = .inl s') : MintInv P plan s' := by
  rcases MintEnv.round_cases henv h with ⟨e, hfail⟩ | ⟨tx, hshape, hvout, hsize, hcompare⟩
  · rw [hfail] at hround
    cases hround
  rw [hcompare] at hround
  split_ifs at hround with hless
  cases hround
  -- a fee of at most a cent for each further input is all that its size asks for
  have hcent : CENT = 10000 := rfl
  have hmin : MIN_TX_FEE = 10000 := rfl
  have hadmitted : tx.getSerializeSize < MAX_BLOCK_SIZE / 4 :=
    hsize.trans (show MAX_BLOCK_SIZE_GEN / 5 < MAX_BLOCK_SIZE / 4 by decide)
  have hfee := (CTransaction.getMinFee_send hadmitted).2
  have hbound := hshape.size_le hscript
  have hlength : plan.coins.length = plan.coins.tail.length + 1 := by
    rw [List.length_tail]
    have hpos := List.length_pos_iff.mpr hne
    omega
  refine ⟨hshape, h.nonneg.trans hless.le, ?_⟩
  show tx.getMinFee - MIN_TX_FEE ≤ plan.coins.tail.length * CENT
  rw [hfee, hcent, hmin]
  omega

/-- **The rounds that are reached.** -/
theorem MintPlan.Right.reached {s : MintRound} (henv : env.Promises P) (h : plan.Right P env base)
    (hreach : Reaches (env.round plan) ⟨0, 0, plan.txNew⟩ s) : MintInv P plan s := by
  obtain ⟨_, _, setCoins, _, -, hfound, -⟩ := h.selection
  have hscript := (henv.stakeScript hfound.script).2
  have hne : plan.coins ≠ [] := by
    rw [h.coins]
    exact List.cons_ne_nil _ _
  exact hreach.invariant (fun _ _ hs hround => hs.step henv hne hscript hround) h.start

end Plan

/-! ### Validity -/

/-- Each output is empty or worth at least a cent. -/
theorem le_of_checkOutputs {fUser : Bool} {vout : List CTxOut} {acc : ℤ}
    (h : checkOutputs fUser vout acc = .ok ()) :
    ∀ txout ∈ vout, txout.isEmpty = true ∨ CENT ≤ txout.nValue := by
  induction vout generalizing acc with
  | nil => simp
  | cons o vout ih =>
    simp only [checkOutputs, Result.bind_eq_ok, require_eq_ok] at h
    obtain ⟨-, -, -, hmin, -, -, -, -, hrest⟩ := h
    intro txout hmem
    rcases List.mem_cons.mp hmem with rfl | hmem
    · rw [Bool.or_eq_true, decide_eq_true_eq] at hmin
      exact hmin
    · exact ih hrest txout hmem

/-- What `CheckTransaction` has seen of a wallet transaction. -/
theorem coin_of_checkTransaction {P : Params} {pcoin : PCoin} {txout : CTxOut}
    (h : pcoin.first.checkTransaction = .ok ()) (htxout : pcoin.txout? = some txout) (hpos : 0 < txout.nValue) :
    CENT ≤ pcoin.nValue ∧ (pcoin.txin P).prevout.isNull = false := by
  simp only [CTransaction.checkTransaction, Result.bind_eq_ok, require_eq_ok] at h
  obtain ⟨-, -, -, -, -, hsize, _, hout, -⟩ := h
  -- the coin has the value of its output, which is not empty
  have hvalue : pcoin.nValue = txout.nValue := by
    unfold PCoin.nValue
    rw [htxout]
    rfl
  have hmem : pcoin.first.vout[pcoin.second]? = some txout := htxout
  constructor
  · rw [hvalue]
    rcases le_of_checkOutputs hout txout (List.mem_of_getElem? hmem) with hempty | hle
    · unfold CTxOut.isEmpty at hempty
      simp only [Bool.and_eq_true, decide_eq_true_eq] at hempty
      omega
    · exact hle
  · -- there are fewer outputs than the largest index
    have hlt : pcoin.second < pcoin.first.vout.length := (List.getElem?_eq_some_iff.mp hmem).1
    have hsum : pcoin.first.vout.length ≤ (pcoin.first.vout.map CTxOut.getSerializeSize).sum := by
      have hle := List.card_nsmul_le_sum (pcoin.first.vout.map CTxOut.getSerializeSize) 1 (by
        intro x hx
        obtain ⟨o, -, rfl⟩ := List.mem_map.mp hx
        unfold CTxOut.getSerializeSize
        omega)
      rwa [List.length_map, smul_eq_mul, mul_one] at hle
    have hbound : pcoin.first.getSerializeSize ≤ 1000000 := of_decide_eq_true hsize
    have hindex : pcoin.second ≠ UINT_MAX := by
      have hmax : UINT_MAX = 4294967295 := rfl
      unfold CTransaction.getSerializeSize at hbound
      omega
    unfold PCoin.txin COutPoint.isNull
    simp [hindex]

section Valid

variable {P : Params} {env : MintEnv} {base tx : CTransaction} {plan : MintPlan} {s : MintRound}

/-- The rules for a coinstake which spends these coins: it is one, it passes `CheckTransaction`, its first
input meets the target at its time, no input is later, and it earns no more than the reward. -/
structure CoinStakeValid (P : Params) (env : MintEnv) (coins : List PCoin) (tx : CTransaction) : Prop where
  coinStake : tx.isCoinStake = true
  checked : tx.checkTransaction = .ok ()
  kernel : ∃ (pcoin : PCoin) (txindex : CTxIndex) (block : CBlock) (hashProofOfStake : Uint256),
    tx.vin.head?.map CTxIn.prevout = some (pcoin.txin P).prevout ∧
    env.connect.txIndex.lookup (P.hashTx pcoin.first) = some txindex ∧
    env.connect.files.readBlock txindex.pos.nFile txindex.pos.nBlockPos = some block ∧
    checkStakeKernelHash P env.hashes env.view env.nBits block (txindex.pos.nTxPos - txindex.pos.nBlockPos)
      pcoin.first (pcoin.txin P).prevout tx.nTime false = .ok hashProofOfStake
  times : ∀ pcoin ∈ coins, pcoin.first.nTime ≤ tx.nTime
  reward : ∃ nCoinAge, tx.getCoinAge P env.connect = some nCoinAge ∧
    tx.valueOut - valueOf coins ≤ getProofOfStakeReward nCoinAge - tx.getMinFee + MIN_TX_FEE

/-- The coins of a plan are selected, exist and are there once. -/
theorem MintPlan.Right.coins_ok (henv : env.Promises P) (h : plan.Right P env base) :
    (∀ pcoin ∈ plan.coins, CENT ≤ pcoin.nValue ∧ (pcoin.txin P).prevout.isNull = false) ∧
      (plan.coins.map fun pcoin => (pcoin.txin P).prevout).Nodup := by
  obtain ⟨nTargetValue, nSpendTime, setCoins, nValueIn, hselected, hfound, hsub⟩ := h.selection
  -- the kernel and what was joined come from the selection
  have hmem : ∀ pcoin ∈ plan.coins, pcoin ∈ setCoins := by
    intro pcoin hpcoin
    rw [h.coins] at hpcoin
    rcases List.mem_cons.mp hpcoin with rfl | hpcoin
    · exact hfound.mem
    · exact hsub.subset hpcoin
  constructor
  · intro pcoin hpcoin
    obtain ⟨hcheck, txout, htxout, hpos⟩ := henv.coin _ _ _ _ hselected pcoin (hmem pcoin hpcoin)
    exact coin_of_checkTransaction hcheck htxout hpos
  · have hnodup : plan.coins.Nodup := by
      rw [h.coins]
      refine List.nodup_cons.mpr ⟨?_, (henv.nodup _ _ _ _ hselected).sublist hsub⟩
      intro hkernel
      exact (h.extras _ hkernel).1 rfl
    -- two coins with the same transaction and index are one coin
    refine List.Nodup.map_on ?_ hnodup
    intro a ha b hb heq
    have hhash : P.hashTx a.first = P.hashTx b.first := congrArg COutPoint.hash heq
    have hindex : a.second = b.second := congrArg COutPoint.n heq
    have hfirst := henv.hash _ _ _ _ hselected a (hmem a ha) b (hmem b hb) hhash
    cases a
    cases b
    simp_all

/-- A transaction with the inputs of the plan is no coinbase. -/
theorem MintPlan.Shape.isCoinBase (henv : env.Promises P) (hright : plan.Right P env base)
    (h : plan.Shape P tx) : tx.isCoinBase = false := by
  have hnull := (hright.coins_ok henv).1 plan.kernel.pcoin (by rw [hright.coins]; exact List.mem_cons_self)
  have hprevouts := h.prevouts
  rw [hright.coins, List.map_cons] at hprevouts
  obtain ⟨txin, vin, hvin, hfirst, -⟩ := List.map_eq_cons_iff.mp hprevouts
  unfold CTransaction.isCoinBase
  rw [hvin]
  cases vin with
  | nil =>
    show (txin.prevout.isNull && _) = false
    rw [hfirst, hnull.2, Bool.false_and]
  | cons txin' vin => rfl

/-- The coin age depends on the inputs and the time. -/
theorem MintPlan.Shape.getCoinAge (henv : env.Promises P) (hright : plan.Right P env base)
    (h : plan.Shape P tx) : tx.getCoinAge P env.connect = plan.txNew.getCoinAge P env.connect := by
  have hstart := hright.start.shape
  rw [getCoinAge_eq (h.isCoinBase henv hright), getCoinAge_eq (hstart.isCoinBase henv hright)]
  unfold CTransaction.centSeconds
  rw [h.prevouts, h.nTime, hstart.prevouts]

/-- The outputs share the payout. -/
theorem outputs_sum (nPayout : ℤ) : ((plan.outputs nPayout).map CTxOut.nValue).sum = nPayout := by
  unfold MintPlan.outputs
  have hempty : CTxOut.empty.nValue = 0 := rfl
  split_ifs <;> simp [hempty]

/-- `CheckTransaction` is about the outputs only. -/
theorem MintPlan.Shape.checkTransaction_iff (henv : env.Promises P) (hright : plan.Right P env base)
    (h : plan.Shape P tx) (hsize : tx.getSerializeSize ≤ MAX_BLOCK_SIZE) (hstake : tx.isCoinStake = true) :
    tx.checkTransaction = .ok () ↔ checkOutputs false tx.vout 0 = .ok () := by
  obtain ⟨hcoins, hnodup⟩ := hright.coins_ok henv
  -- the inputs are the coins of the plan, each once, and none is null
  have hvin : tx.vin ≠ [] := by
    intro hnil
    have hprevouts := h.prevouts
    rw [hnil, hright.coins, List.map_cons] at hprevouts
    cases hprevouts
  have hvout : tx.vout ≠ [] := by
    obtain ⟨_, _, heq⟩ := h.vout
    rw [heq]
    exact List.cons_ne_nil _ _
  have hprevouts : tx.prevouts = plan.coins.map fun pcoin => (pcoin.txin P).prevout := h.prevouts
  have hnotnull : tx.prevouts.all (fun prevout => !prevout.isNull) = true := by
    rw [hprevouts, List.all_eq_true]
    intro prevout hmem
    obtain ⟨pcoin, hpcoin, rfl⟩ := List.mem_map.mp hmem
    rw [(hcoins pcoin hpcoin).2]
    rfl
  -- a generated transaction may have an empty output
  have hgenerated : tx.isGenerated = true := by
    unfold CTransaction.isGenerated
    rw [hstake, Bool.or_true]
  constructor
  · intro hcheck
    simp only [CTransaction.checkTransaction, Result.bind_eq_ok, require_eq_ok] at hcheck
    obtain ⟨-, -, -, -, -, -, _, hout, -⟩ := hcheck
    rwa [hgenerated] at hout
  · intro hout
    simp only [CTransaction.checkTransaction, Result.bind_eq_ok, require_eq_ok]
    refine ⟨(), by simpa using hvin, (), by simpa using hvout, (), decide_eq_true hsize, (), ?_, (),
      decide_eq_true (hprevouts ▸ hnodup), ?_⟩
    · rw [hgenerated]
      exact hout
    · rw [if_neg (by rw [h.isCoinBase henv hright]; exact Bool.false_ne_true), require_eq_ok]
      exact hnotnull

/-- Two outputs of a stake, or one, have to be worth a cent each. -/
theorem checkOutputs_stake {nPayout : ℤ} (hscript : 0 < plan.kernel.scriptPubKeyOut.length)
    (hpos : 0 ≤ nPayout) (hone : plan.fSplit = false → CENT ≤ nPayout) :
    checkOutputs false (plan.outputs nPayout) 0 = .ok () ↔
      (plan.fSplit = true → 2 * CENT ≤ nPayout) ∧ nPayout ≤ MAX_MONEY := by
  have hcent : CENT = 10000 := rfl
  have hmin : MIN_TXOUT_AMOUNT = 10000 := rfl
  have hmax : MAX_MONEY = 2000000000000000 := rfl
  have hempty : CTxOut.empty.isEmpty = true := rfl
  have hzero : CTxOut.empty.nValue = 0 := rfl
  have hfull : ∀ nValue, (⟨nValue, plan.kernel.scriptPubKeyOut⟩ : CTxOut).isEmpty = false := by
    intro nValue
    unfold CTxOut.isEmpty
    rw [List.isEmpty_eq_false_iff.mpr (List.length_pos_iff.mp hscript), Bool.and_false]
  -- the halves are rounded to cents, as the payout is not negative
  have hhalf : (nPayout.tdiv 2).tdiv CENT = nPayout / 2 / CENT := by
    rw [Int.tdiv_eq_ediv_of_nonneg hpos, Int.tdiv_eq_ediv_of_nonneg (by omega)]
  unfold MintPlan.outputs
  rw [hhalf]
  cases hsplit : plan.fSplit with
  | false =>
    have hpayout := hone hsplit
    simp only [Bool.false_eq_true, if_false, checkOutputs, Result.bind_eq_ok, require_eq_ok, hempty,
      hzero, hfull, moneyRange_iff, Bool.and_false, Bool.not_false, Bool.false_or, Bool.true_or, decide_eq_true_eq,
      exists_const, true_and, and_true, false_implies, hcent, hmin, hmax]
    omega
  | true =>
    simp only [if_true, checkOutputs, Result.bind_eq_ok, require_eq_ok, hempty,
      hzero, hfull, moneyRange_iff, Bool.and_false, Bool.not_false, Bool.false_or, Bool.true_or, decide_eq_true_eq,
      exists_const, true_and, and_true, forall_const, hcent, hmin, hmax]
    omega

/-- The stake can be paid out in the round `s`: the half of a split stake is worth a cent, what is paid out
is in the money range, and no coin is later than the kernel although its age has wrapped around. -/
structure MintPlan.Payable (plan : MintPlan) (s : MintRound) : Prop where
  split : plan.fSplit = true → 2 * CENT ≤ plan.nCredit
  range : plan.nCredit - s.nMinFee ≤ MAX_MONEY
  wrapped : ∀ pcoin ∈ plan.coins.tail, 2 ^ 32 ≤ (pcoin.first.nTime : ℤ) + STAKE_MAX_AGE →
    pcoin.first.nTime ≤ plan.txNew.nTime

/-- Each coin is worth a cent, and the reward is not negative. -/
theorem MintPlan.Right.credit_ge (henv : env.Promises P) (h : plan.Right P env base) :
    plan.coins.length * CENT ≤ plan.nCredit := by
  obtain ⟨nCoinAge, hage, hcredit⟩ := h.credit
  have hvalue : plan.coins.length * CENT ≤ valueOf plan.coins := by
    have hle := List.card_nsmul_le_sum (plan.coins.map PCoin.nValue) CENT (by
      intro x hx
      obtain ⟨pcoin, hpcoin, rfl⟩ := List.mem_map.mp hx
      exact ((h.coins_ok henv).1 pcoin hpcoin).1)
    rw [List.length_map, nsmul_eq_mul] at hle
    exact hle
  rw [getCoinAge_eq (h.start.shape.isCoinBase henv h), CTransaction.centSeconds, Option.map_map] at hage
  obtain ⟨ages, hages, rfl⟩ := Option.map_eq_some_iff.mp hage
  have hnonneg := coinDays_nonneg (centSeconds_bounds henv.files hages).1
  have hreward := getProofOfStakeReward_mono hnonneg
  have hzero : getProofOfStakeReward 0 = 0 := rfl
  rw [hzero] at hreward
  rw [hcredit]
  exact le_add_of_le_of_nonneg hvalue hreward

/-- Among the coins of the plan only those whose age wraps around may be later. -/
theorem MintPlan.Right.times_iff (h : plan.Right P env base) :
    (∀ pcoin ∈ plan.coins, pcoin.first.nTime ≤ plan.txNew.nTime) ↔
      ∀ pcoin ∈ plan.coins.tail, 2 ^ 32 ≤ (pcoin.first.nTime : ℤ) + STAKE_MAX_AGE →
        pcoin.first.nTime ≤ plan.txNew.nTime := by
  have hage : STAKE_MAX_AGE = 7776000 := rfl
  constructor
  · intro htimes pcoin hpcoin _
    exact htimes pcoin (List.mem_of_mem_tail hpcoin)
  · intro hwrapped pcoin hpcoin
    rw [h.coins] at hpcoin
    rcases List.mem_cons.mp hpcoin with rfl | hpcoin
    · -- the kernel is checked at the time of the stake
      obtain ⟨_, _, _, _, -, hfound, -⟩ := h.selection
      obtain ⟨hash, hcheck⟩ := hfound.check
      unfold MintEnv.checkKernel checkStakeKernelHash at hcheck
      obtain ⟨_, htime, -⟩ := Result.bind_eq_ok.mp hcheck
      rw [h.nTime]
      exact of_decide_eq_true (require_eq_ok.mp htime)
    · by_cases hwrap : 2 ^ 32 ≤ (pcoin.first.nTime : ℤ) + STAKE_MAX_AGE
      · exact hwrapped pcoin hpcoin hwrap
      · -- its age does not wrap around, so it was old enough when it was joined
        have hyoung := (h.extras pcoin hpcoin).2
        unfold tooYoung at hyoung
        rw [hage] at hwrap hyoung
        have hmod : (pcoin.first.nTime + (7776000 : ℤ).toNat) % 2 ^ 32 = pcoin.first.nTime + 7776000 :=
          Nat.mod_eq_of_lt (by omega)
        rw [hmod, decide_eq_false_iff_not] at hyoung
        omega

/-- Every coinstake comes out of a plan and a last round of the fee loop. It follows all the rules if and
only if the plan can be paid out in that round. -/
theorem coinStake_valid_iff (P : Params) (env : MintEnv) (henv : env.Promises P) (base : CTransaction) (fuel : ℕ)
    (tx : CTransaction) (hrun : createCoinStake P env base fuel = some (.ok tx)) :
    ∃ plan s, env.plan P base = .ok plan ∧ Reaches (env.round plan) ⟨0, 0, plan.txNew⟩ s ∧
      env.round plan s = .inr (.ok tx) ∧
      tx.vin.map CTxIn.prevout = (plan.coins.map fun pcoin => (pcoin.txin P).prevout) ∧
      (CoinStakeValid P env plan.coins tx ↔ plan.Payable s) := by
  unfold createCoinStake at hrun
  -- without a plan there is no coinstake
  cases hplan : env.plan P base with
  | error e =>
    rw [hplan] at hrun
    cases hrun
  | ok plan =>
    rw [hplan] at hrun
    have hright := MintEnv.plan_right hplan
    obtain ⟨_, _, setCoins, _, -, hfound, -⟩ := hright.selection
    have hnonempty := (henv.stakeScript hfound.script).1
    have hne : plan.coins ≠ [] := by
      rw [hright.coins]
      exact List.cons_ne_nil _ _
    -- the fee loop has ended in a round
    obtain ⟨s, hreach, hlast⟩ := loop_last hrun
    have hinv := hright.reached henv hreach
    -- which has failed, or has built the transaction
    rcases MintEnv.round_cases henv hinv with ⟨e, hfail⟩ | ⟨tx', hshape, hvout, hsize, hcompare⟩
    · rw [hfail] at hlast
      cases hlast
    have hround := hlast
    rw [hcompare] at hlast
    split_ifs at hlast with hless
    cases hlast
    refine ⟨plan, s, rfl, hreach, hround, hshape.prevouts, ?_⟩
    have hcoins := (hright.coins_ok henv).1
    -- its first input is the kernel and its first output is empty
    have hstake : tx.isCoinStake = true := by
      have hprevouts := hshape.prevouts
      rw [hright.coins, List.map_cons] at hprevouts
      obtain ⟨txin, vin, hvin, hfirst, -⟩ := List.map_eq_cons_iff.mp hprevouts
      obtain ⟨nFirst, nSecond, hshapevout⟩ := hshape.vout
      have hnull := (hcoins plan.kernel.pcoin (by rw [hright.coins]; exact List.mem_cons_self)).2
      unfold CTransaction.isCoinStake
      rw [hvin, hshapevout]
      show (!txin.prevout.isNull && CTxOut.empty.isEmpty) = true
      rw [hfirst, hnull]
      rfl
    have hadmitted : tx.getSerializeSize ≤ MAX_BLOCK_SIZE :=
      (hsize.trans (show MAX_BLOCK_SIZE_GEN / 5 < MAX_BLOCK_SIZE by decide)).le
    -- the credit is more than the fee can be
    have hcredit := hright.credit_ge henv
    have hcent : CENT = 10000 := rfl
    have hlength : plan.coins.length = plan.coins.tail.length + 1 := by
      rw [List.length_tail]
      have hpos := List.length_pos_iff.mpr hne
      omega
    -- a split stake has one input, and no fee
    have hfee : plan.fSplit = true → s.nMinFee = 0 := by
      intro hs
      have hle := hinv.le
      have hnonneg := hinv.nonneg
      rw [hright.alone hs, List.length_nil] at hle
      omega
    have hpayout : CENT ≤ plan.nCredit - s.nMinFee := by
      have hle := hinv.le
      rw [hcent] at hle hcredit ⊢
      push_cast [hlength] at hcredit
      omega
    -- `CheckTransaction` asks for outputs above the minimum and inside the range
    have hchecked : tx.checkTransaction = .ok () ↔
        (plan.fSplit = true → 2 * CENT ≤ plan.nCredit) ∧ plan.nCredit - s.nMinFee ≤ MAX_MONEY := by
      rw [hshape.checkTransaction_iff henv hright hadmitted hstake, hvout,
        checkOutputs_stake hnonempty (by omega) (fun _ => hpayout)]
      refine and_congr_left' (imp_congr_right ?_)
      intro hs
      rw [hfee hs, sub_zero]
    -- what is valid is payable
    constructor
    · intro hvalid
      obtain ⟨hsplit, hrange⟩ := hchecked.mp hvalid.checked
      refine ⟨hsplit, hrange, hright.times_iff.mp ?_⟩
      intro pcoin hpcoin
      rw [← hshape.nTime]
      exact hvalid.times pcoin hpcoin
    · -- and what is payable is valid
      intro hpayable
      refine ⟨hstake, hchecked.mpr ⟨hpayable.split, hpayable.range⟩, ?_, ?_, ?_⟩
      · -- the kernel was found
        obtain ⟨txindex, hindex, hblock, hoffset⟩ := hfound.index
        obtain ⟨hash, hcheck⟩ := hfound.check
        refine ⟨plan.kernel.pcoin, txindex, plan.kernel.block, hash, ?_, hindex, hblock, ?_⟩
        · rw [← List.head?_map, hshape.prevouts, hright.coins]
          rfl
        · rw [hshape.nTime, hright.nTime, ← hoffset]
          exact hcheck
      · -- no input is later than the transaction
        intro pcoin hpcoin
        rw [hshape.nTime]
        exact hright.times_iff.mpr hpayable.wrapped pcoin hpcoin
      · -- the coin age is the one the plan has computed, and pays for the reward
        obtain ⟨nCoinAge, hage, hsum⟩ := hright.credit
        refine ⟨nCoinAge, (hshape.getCoinAge henv hright).trans hage, ?_⟩
        have hout : tx.valueOut = plan.nCredit - s.nMinFee := by
          unfold CTransaction.valueOut
          rw [hvout, outputs_sum]
        rw [hout, hsum]
        omega

end Valid

namespace MintSample

open SendSample (params)
open StabilitySample

/-- A pay-to-pubkey script. -/
def keyScript : CScript := (33 : UInt8) :: List.replicate 33 2 ++ [OP_CHECKSIG]

/-- A coin of the first block. -/
def coin (nValue : ℤ) : PCoin where
  first := { nTime := 1510339532, vin := [⟨⟨7, 0⟩, [], UINT_MAX⟩], vout := [⟨nValue, keyScript⟩] }
  second := 0

def block (nValue : ℤ) : CBlock where
  hashPrevBlock := 0
  hashMerkleRoot := 0
  nTime := 1510339532
  nBits := 0x1d00ffff
  nNonce := 0
  vtx := [(coin nValue).first]
  vchBlockSig := []

/-- A wallet with this coin; every kernel meets the target, and signatures have 72 bytes. -/
def wallet (nValue : ℤ) : MintEnv where
  nBits := 0x1d00ffff
  nSearchInterval := 1
  nBalance := nValue
  nReserveBalance := some 0
  selectCoins nTargetValue _ := if nTargetValue ≤ nValue then some ([coin nValue], nValue) else none
  connect :=
    { files := { blocks := [⟨1, 8, block nValue⟩] }
      txIndex := AList.insert 1510339532
        (CTxIndex.new ⟨1, 8, StoredBlock.firstTxPos ⟨1, 8, block nValue⟩⟩ 1) ∅
      mempool := ∅
      nBestHeight := 1 }
  hashes := { hashSelection := fun _ _ => 0, hashKernel := fun _ => 0 }
  view := .ofChain [entry 0, entry 1] 0
  fShutdown _ _ := false
  getKey _ := none
  signSignature _ _ _ _ := some (List.replicate 72 0)

/-- `txNew` before the call, eighty days later. -/
def base : CTransaction where
  nTime := 1510339532 + 80 * 86400
  vin := []
  vout := []

/-- A split stake of the coin. -/
def stake (nFirst nSecond : ℤ) : CTransaction where
  nTime := 1510339532 + 80 * 86400
  vin := [⟨⟨1510339532, 0⟩, List.replicate 72 0, UINT_MAX⟩]
  vout := [CTxOut.empty, ⟨nFirst, keyScript⟩, ⟨nSecond, keyScript⟩]

/-- The sample wallet. -/
theorem promises : (wallet (5 * COIN)).Promises params := by
  -- the sample wallet has one coin to select
  have hselected : ∀ nTargetValue nSpendTime setCoins nValueIn,
      (wallet (5 * COIN)).selectCoins nTargetValue nSpendTime = some (setCoins, nValueIn) →
        setCoins = [coin (5 * COIN)] := by
    intro nTargetValue nSpendTime setCoins nValueIn h
    unfold wallet at h
    simp only at h
    split_ifs at h
    cases h
    rfl
  refine ⟨?_, ?_, ?_, ?_, ?_, ?_⟩
  · intro nTargetValue nSpendTime setCoins nValueIn h
    rw [hselected _ _ _ _ h]
    exact List.nodup_singleton _
  · intro nTargetValue nSpendTime setCoins nValueIn h pcoin hpcoin
    rw [hselected _ _ _ _ h, List.mem_singleton] at hpcoin
    subst hpcoin
    exact ⟨by decide, ⟨5 * COIN, keyScript⟩, rfl, by decide⟩
  · intro nTargetValue nSpendTime setCoins nValueIn h a ha b hb _
    rw [hselected _ _ _ _ h, List.mem_singleton] at ha hb
    rw [ha, hb]
  · intro r hr tx htx
    obtain rfl := List.mem_singleton.mp hr
    obtain rfl := List.mem_singleton.mp htx
    exact ⟨by simp [coin], by simp [coin], by decide, by decide, fun _ => by decide⟩
  · intro hash vchPubKey h
    cases h
  · intro nRound tx pcoin nIn scriptSig h
    cases h
    decide

end MintSample

open MintSample in
/-- A coin of five: its two halves, with a reward of a cent. -/
theorem coinStake_valid_iff_sample :
    ∃ coins, CoinStakeValid SendSample.params (wallet (5 * COIN)) coins (stake (250 * CENT) (251 * CENT)) := by
  have hrun : createCoinStake SendSample.params (wallet (5 * COIN)) base 1
      = some (.ok (stake (250 * CENT) (251 * CENT))) := by decide +kernel
  obtain ⟨plan, s, hplan, hreach, -, -, hiff⟩ :=
    coinStake_valid_iff SendSample.params (wallet (5 * COIN)) promises base 1 _ hrun
  have hcredit : ((wallet (5 * COIN)).plan SendSample.params base).toOption.map MintPlan.nCredit
      = some (501 * CENT) := by decide
  have hcoins : ((wallet (5 * COIN)).plan SendSample.params base).toOption.map (fun plan => plan.coins.tail)
      = some [] := by decide
  rw [hplan] at hcredit hcoins
  have hcredit' : plan.nCredit = 501 * CENT := Option.some.inj hcredit
  have hcoins' : plan.coins.tail = [] := Option.some.inj hcoins
  -- the payout is the credit less a fee, so between a cent and the limit
  have hfee := ((MintEnv.plan_right hplan).reached promises hreach).nonneg
  refine ⟨plan.coins, hiff.mpr ⟨?_, ?_, ?_⟩⟩
  · intro _
    rw [hcredit']
    decide
  · rw [hcredit', show CENT = 10000 from rfl, show MAX_MONEY = 2000000000000000 from rfl]
    omega
  · rw [hcoins']
    simp

open MintSample in
/-- A coin of 0.019 is split into nothing and all of it. -/
theorem coinStake_halfCent : createCoinStake SendSample.params (wallet 19000) base 1 = some (.ok (stake 0 19000)) ∧
    (stake 0 19000).checkTransaction =
      .error (.error 100 "CTransaction::CheckTransaction() : txout.nValue below minimum") := by
  constructor
  · decide
  · decide

end Peershares
