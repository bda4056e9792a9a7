import Mathlib.Algebra.BigOperators.Group.List.Lemmas
import Mathlib.Algebra.Order.BigOperators.Group.List
import Peershares.Framework.OrderedMap
import Peershares.Model.Connect
import Peershares.Target.Retarget

/-!
# Stake rewards

`GetCoinAge` adds up what the inputs have aged and scales the sum down to coin-days; the reward scales the
coin-days down again. Every scaling rounds down, so a stake that is split earns no more than the whole, and
the sizes of the intermediate values follow from those of the amounts.

`GetCoinAge` computes with 256 bits and takes the low 64 of the result. Here the sum is an integer first
(`centSeconds`, `coinDays`), which is additive over the inputs and bounded by the values that are spent times the time
of the transaction; then the bound shows that nothing is cut off (`CoinAgeFits`). For the values it is used that a
transaction in the block files has passed its checks (`FilesChecked`).

* `tdiv_add_tdiv_le`, `tdiv_mono` — the roundings
* `getCoinAge_add` — the coin age of a union of inputs
* `CTransaction.coinAge_fits` — the range of the intermediate values
* `stakeReward_sound` — splitting never raises the reward, and nothing overflows
-/

namespace Peershares

/-! ### Rounding -/

/-- Rounding a sum down loses no more than rounding its summands. -/
theorem tdiv_add_tdiv_le {a b k : Int} (ha : 0 ≤ a) (hb : 0 ≤ b) (hk : 0 < k) :
    a.tdiv k + b.tdiv k ≤ (a + b).tdiv k := by
  rw [Int.tdiv_eq_ediv_of_nonneg ha, Int.tdiv_eq_ediv_of_nonneg hb,
    Int.tdiv_eq_ediv_of_nonneg (Int.add_nonneg ha hb)]
  refine Int.le_ediv_of_mul_le hk ?_
  have h₁ := Int.ediv_mul_le a hk.ne'
  have h₂ := Int.ediv_mul_le b hk.ne'
  linarith

/-- The division of C keeps the order. -/
theorem tdiv_mono {a b k : Int} (h : a ≤ b) (hk : 0 < k) : a.tdiv k ≤ b.tdiv k := by
  -- negative numbers round towards zero
  have hneg : ∀ x : Int, x.tdiv k = -((-x).tdiv k) := fun x => by rw [Int.neg_tdiv, neg_neg]
  rcases le_or_gt 0 a with ha | ha
  · rw [Int.tdiv_eq_ediv_of_nonneg ha, Int.tdiv_eq_ediv_of_nonneg (ha.trans h)]
    exact Int.ediv_le_ediv hk h
  · rcases le_or_gt 0 b with hb | hb
    · have hna := Int.tdiv_nonneg (show 0 ≤ -a by omega) hk.le
      have hpb := Int.tdiv_nonneg hb hk.le
      rw [hneg a]
      omega
    · rw [hneg a, hneg b, Int.tdiv_eq_ediv_of_nonneg (by omega), Int.tdiv_eq_ediv_of_nonneg (by omega)]
      have := Int.ediv_le_ediv hk (show -b ≤ -a by omega)
      omega

/-- An older coin earns no less. -/
theorem getProofOfStakeReward_mono {a b : Int} (h : a ≤ b) :
    getProofOfStakeReward a ≤ getProofOfStakeReward b := by
  have hscaled := tdiv_mono (show a * 33 ≤ b * 33 by omega) (show (0 : Int) < 365 * 33 + 8 by norm_num)
  have hcent : (0 : Int) ≤ CENT := by decide
  exact mul_le_mul_of_nonneg_right hscaled hcent

/-- Two coins together earn no less than apart. -/
theorem getProofOfStakeReward_add {a b : Int} (ha : 0 ≤ a) (hb : 0 ≤ b) :
    getProofOfStakeReward a + getProofOfStakeReward b ≤ getProofOfStakeReward (a + b) := by
  have hscaled := tdiv_add_tdiv_le (show 0 ≤ a * 33 by omega) (show 0 ≤ b * 33 by omega)
    (show (0 : Int) < 365 * 33 + 8 by norm_num)
  have hcent : (0 : Int) ≤ CENT := by decide
  unfold getProofOfStakeReward
  rw [← add_mul, show (a + b) * 33 = a * 33 + b * 33 by ring]
  exact mul_le_mul_of_nonneg_right hscaled hcent

/-! ### Cent-seconds -/

section CoinAge

variable {P : Params} {env : ConnectEnv}

/-- What an outpoint adds to the age of a transaction of this time. -/
def coinAgeAt (P : Params) (env : ConnectEnv) (nTime : Nat) (prevout : COutPoint) : Option Int :=
  coinAgeOf P env { nTime, vin := [], vout := [] } ⟨prevout, [], 0⟩

/-- `bnCentSecond` in the end. -/
def CTransaction.centSeconds (P : Params) (env : ConnectEnv) (tx : CTransaction) : Option Int :=
  ((tx.vin.map CTxIn.prevout).mapM (coinAgeAt P env tx.nTime)).map List.sum

/-- From cent-seconds to coin-days. -/
def coinDays (bnCentSecond : Int) : Int := ((bnCentSecond * CENT).tdiv COIN).tdiv (24 * 60 * 60)

/-- A loop over images. -/
theorem mapM_comp_eq {α β γ : Type} (f : β → Option γ) (g : α → β) (l : List α) :
    l.mapM (fun a => f (g a)) = (l.map g).mapM f := by
  induction l with
  | nil => rfl
  | cons a l ih => simp [List.mapM_cons, ih]

/-- `GetCoinAge` is the coin days of the cent seconds. -/
theorem getCoinAge_eq {tx : CTransaction} (h : tx.isCoinBase = false) :
    tx.getCoinAge P env = (tx.centSeconds P env).map coinDays := by
  have hmap : tx.vin.mapM (coinAgeOf P env tx)
      = (tx.vin.map CTxIn.prevout).mapM (coinAgeAt P env tx.nTime) :=
    mapM_comp_eq (coinAgeAt P env tx.nTime) CTxIn.prevout tx.vin
  unfold CTransaction.getCoinAge CTransaction.centSeconds
  rw [h, hmap]
  cases (tx.vin.map CTxIn.prevout).mapM (coinAgeAt P env tx.nTime) <;> rfl

/-- A loop that found everything. -/
theorem mapM_eq_some_iff {α β : Type} {f : α → Option β} {l : List α} {r : List β} :
    l.mapM f = some r ↔ l.map f = r.map some := by
  induction l generalizing r with
  | nil => cases r <;> simp
  | cons a l ih =>
    cases hfa : f a with
    | none => cases r <;> simp [List.mapM_cons, hfa]
    | some b =>
      cases hl : l.mapM f with
      | none =>
        have hno : ∀ r' : List β, l.map f ≠ r'.map some := by
          intro r' h
          rw [ih.mpr h] at hl
          exact absurd hl (by simp)
        cases r with
        | nil => simp [List.mapM_cons, hfa, hl]
        | cons y r => simp [List.mapM_cons, hfa, hl, hno r]
      | some s =>
        have hs := ih.mp hl
        cases r with
        | nil => simp [List.mapM_cons, hfa, hl]
        | cons y r =>
          simp only [List.mapM_cons, hfa, hl, List.map_cons, List.cons.injEq, Option.some.injEq, hs]
          simp [(List.map_injective_iff.mpr (Option.some_injective β)).eq_iff]

/-- The age of a union of inputs, in any order, is the sum of the ages. -/
theorem centSeconds_union {nTime : Nat} {u v w : List COutPoint} (hperm : w.Perm (u ++ v)) {a b : List Int}
    (ha : u.mapM (coinAgeAt P env nTime) = some a) (hb : v.mapM (coinAgeAt P env nTime) = some b) :
    ∃ c, w.mapM (coinAgeAt P env nTime) = some c ∧ c.sum = a.sum + b.sum := by
  rw [mapM_eq_some_iff] at ha hb
  have hmap : (w.map (coinAgeAt P env nTime)).Perm ((a ++ b).map some) := by
    rw [List.map_append, ← ha, ← hb, ← List.map_append]
    exact hperm.map _
  obtain ⟨c, hc, hcperm⟩ := Framework.exists_map_eq_of_perm hmap
  refine ⟨c, mapM_eq_some_iff.mpr hc, ?_⟩
  rw [hcperm.sum_eq, List.sum_append]

/-! ### Ranges -/

/-- `nValueIn` of an outpoint: the value of the output, when it is found. -/
def valueAt (env : ConnectEnv) (prevout : COutPoint) : Int :=
  match env.txIndex.lookup prevout.hash with
  | none => 0
  | some txindex =>
    match env.files.readTx txindex.pos with
    | none => 0
    | some txPrev => ((txPrev.vout[prevout.n]?).map CTxOut.nValue).getD 0

/-- The transactions on disk have passed `CheckTransaction`. -/
def FilesChecked (files : BlockFiles) : Prop := ∀ r ∈ files.blocks, ∀ tx ∈ r.block.vtx, tx.Checked

/-- A transaction read at an offset is one of its block. -/
theorem mem_of_txAt {nPos nTxPos : Nat} {vtx : List CTransaction} {tx : CTransaction}
    (h : txAt nPos vtx nTxPos = some tx) : tx ∈ vtx := by
  induction vtx generalizing nPos with
  | nil => exact absurd h (by simp [txAt])
  | cons t vtx ih =>
    unfold txAt at h
    split_ifs at h
    · exact (Option.some.inj h) ▸ List.mem_cons_self
    · exact List.mem_cons_of_mem t (ih h)

/-- What is read from the files has been checked. -/
theorem FilesChecked.readTx {files : BlockFiles} (h : FilesChecked files) {pos : CDiskTxPos}
    {tx : CTransaction} (hread : files.readTx pos = some tx) : tx.Checked := by
  obtain ⟨r, hr, hfound⟩ := List.exists_of_findSome?_eq_some hread
  split_ifs at hfound
  exact h r hr tx (mem_of_txAt hfound)

/-- So no value is negative. -/
theorem FilesChecked.valueAt_nonneg (h : FilesChecked env.files) (prevout : COutPoint) :
    0 ≤ valueAt env prevout := by
  unfold valueAt
  split
  · exact le_refl 0
  · split
    · exact le_refl 0
    · rename_i txPrev hread
      cases hout : txPrev.vout[prevout.n]? with
      | none => exact le_refl 0
      | some txout => exact (h.readTx hread).nValue_nonneg txout (List.mem_of_getElem? hout)

/-- An input adds its value for each second, at most. -/
theorem coinAgeAt_bounds (h : FilesChecked env.files) {nTime : Nat} {prevout : COutPoint} {age : Int}
    (hage : coinAgeAt P env nTime prevout = some age) :
    0 ≤ age ∧ age * CENT ≤ valueAt env prevout * nTime := by
  have hvalue := h.valueAt_nonneg prevout
  -- the bounds hold of zero, which is what most branches leave
  have hzero : 0 ≤ (0 : Int) ∧ 0 * CENT ≤ valueAt env prevout * nTime := by
    refine ⟨le_refl 0, ?_⟩
    rw [zero_mul]
    exact mul_nonneg hvalue (by omega)
  unfold coinAgeAt coinAgeOf at hage
  cases hindex : env.txIndex.lookup prevout.hash with
  -- the transaction is not in the index
  | none =>
    simp only [hindex, Option.some.injEq] at hage
    exact hage ▸ hzero
  | some txindex =>
    cases hread : env.files.readTx txindex.pos with
    -- it cannot be read
    | none =>
      simp only [hindex, hread, Option.some.injEq] at hage
      exact hage ▸ hzero
    | some txPrev =>
      cases hout : txPrev.vout[prevout.n]? with
      -- the output does not exist
      | none =>
        simp only [hindex, hread, hout, Option.some.injEq] at hage
        exact hage ▸ hzero
      | some txout =>
        simp only [hindex, hread, hout] at hage
        split_ifs at hage with htime
        split at hage
        · exact absurd hage (by simp)
        · split_ifs at hage with hmin
          · exact (Option.some.inj hage) ▸ hzero
          · -- the one branch that counts, and its division rounds down
            have hval : valueAt env prevout = txout.nValue := by
              unfold valueAt
              simp [hindex, hread, hout]
            rw [hval] at hvalue ⊢
            have hproduct : 0 ≤ txout.nValue * ((nTime : Int) - txPrev.nTime) :=
              mul_nonneg hvalue (by omega)
            obtain rfl := Option.some.inj hage
            rw [Int.tdiv_eq_ediv_of_nonneg hproduct]
            refine ⟨Int.ediv_nonneg hproduct (by decide), ?_⟩
            calc txout.nValue * ((nTime : Int) - txPrev.nTime) / CENT * CENT
                ≤ txout.nValue * ((nTime : Int) - txPrev.nTime) := Int.ediv_mul_le _ (by decide)
              _ ≤ txout.nValue * nTime := mul_le_mul_of_nonneg_left (by omega) hvalue

/-- The sum over the inputs, by induction on the row. -/
theorem centSeconds_bounds (h : FilesChecked env.files) {nTime : Nat} :
    ∀ {u : List COutPoint} {ages : List Int}, u.mapM (coinAgeAt P env nTime) = some ages →
      0 ≤ ages.sum ∧ ages.sum * CENT ≤ (u.map (valueAt env)).sum * nTime := by
  intro u
  induction u with
  | nil =>
    intro ages hages
    obtain rfl : ages = [] := by simpa using hages.symm
    simp
  | cons prevout u ih =>
    intro ages hages
    rw [mapM_eq_some_iff] at hages
    cases ages with
    | nil => exact absurd hages (by simp)
    | cons age ages =>
      obtain ⟨hage, hrest⟩ := List.cons.inj hages
      obtain ⟨h₁, h₂⟩ := coinAgeAt_bounds h hage
      obtain ⟨h₃, h₄⟩ := ih (mapM_eq_some_iff.mpr hrest)
      rw [List.sum_cons, List.map_cons, List.sum_cons]
      constructor
      · linarith
      · rw [add_mul, add_mul]
        linarith

/-- No age is negative. -/
theorem coinDays_nonneg {x : Int} (h : 0 ≤ x) : 0 ≤ coinDays x := by
  refine Int.tdiv_nonneg (Int.tdiv_nonneg (mul_nonneg h ?_) ?_) (by norm_num)
  · decide
  · decide

/-- Rounding down once is no less than rounding down twice. -/
theorem coinDays_add {x y : Int} (hx : 0 ≤ x) (hy : 0 ≤ y) : coinDays x + coinDays y ≤ coinDays (x + y) := by
  have hcent : (0 : Int) ≤ CENT := by decide
  have hcoin : (0 : Int) < COIN := by decide
  have hxc := mul_nonneg hx hcent
  have hyc := mul_nonneg hy hcent
  calc coinDays x + coinDays y
      ≤ ((x * CENT).tdiv COIN + (y * CENT).tdiv COIN).tdiv (24 * 60 * 60) :=
        tdiv_add_tdiv_le (Int.tdiv_nonneg hxc hcoin.le) (Int.tdiv_nonneg hyc hcoin.le) (by norm_num)
    _ ≤ coinDays (x + y) := by
        refine tdiv_mono ?_ (by norm_num)
        rw [add_mul]
        exact tdiv_add_tdiv_le hxc hyc hcoin

/-- `CBigNum::getuint64` of a number that is not negative: the low eight bytes. -/
def getuint64 (bn : Int) : Nat := bn.natAbs % 2 ^ 64

/-- The values of `GetProofOfStakeReward`, in the order they are computed. -/
def rewardValues (nCoinAge : Int) : List Int :=
  [nCoinAge, nCoinAge * 33, 365 * 33 + 8, (nCoinAge * 33).tdiv (365 * 33 + 8),
    (nCoinAge * 33).tdiv (365 * 33 + 8) * CENT]

/-- The values of `GetCoinAge` and of the reward for it that have a 64-bit type: `nValueIn` of each input,
the coin age as a `uint64` and the reward's `int64`. -/
structure CTransaction.CoinAgeFits (P : Params) (env : ConnectEnv) (tx : CTransaction) (nCoinAge : Int) :
    Prop where
  values : ∀ txin ∈ tx.vin, valueAt env txin.prevout < 2 ^ 63
  exact64 : (getuint64 nCoinAge : Int) = nCoinAge
  reward : ∀ n ∈ rewardValues nCoinAge, -2 ^ 63 ≤ n ∧ n < 2 ^ 63

/-- All the intermediate results fit into 64 bits. -/
theorem CTransaction.coinAge_fits (h : FilesChecked env.files) {tx : CTransaction} (htime : tx.nTime < 2 ^ 32)
    (htotal : ((tx.vin.map CTxIn.prevout).map (valueAt env)).sum ≤ MAX_MONEY) {nCoinAge : Int}
    (hage : tx.getCoinAge P env = some nCoinAge) : tx.CoinAgeFits P env nCoinAge := by
  have hmax : MAX_MONEY = 2000000000000000 := by decide
  have hcent : CENT = 10000 := rfl
  have hcoin : COIN = 1000000 := rfl
  -- a bound that leaves room for all the factors
  have hbounds : 0 ≤ nCoinAge ∧ nCoinAge < 10 ^ 14 := by
    -- a coinbase has no age, any other transaction that of its inputs
    cases hcb : tx.isCoinBase with
    | true =>
      unfold CTransaction.getCoinAge at hage
      rw [if_pos hcb] at hage
      obtain rfl := Option.some.inj hage
      norm_num
    | false =>
      rw [getCoinAge_eq hcb, CTransaction.centSeconds, Option.map_map] at hage
      obtain ⟨ages, hages, rfl⟩ := Option.map_eq_some_iff.mp hage
      obtain ⟨hnonneg, hle⟩ := centSeconds_bounds h hages
      refine ⟨coinDays_nonneg hnonneg, ?_⟩
      -- the values are at most all the money, the times have 32 bits
      have hage32 : ((tx.vin.map CTxIn.prevout).map (valueAt env)).sum * tx.nTime
          ≤ MAX_MONEY * 2 ^ 32 := by
        have hsum : 0 ≤ ((tx.vin.map CTxIn.prevout).map (valueAt env)).sum := by
          refine List.sum_nonneg ?_
          intro x hx
          obtain ⟨o, -, rfl⟩ := List.mem_map.mp hx
          exact h.valueAt_nonneg o
        have hn : (tx.nTime : Int) ≤ 2 ^ 32 := by exact_mod_cast htime.le
        calc ((tx.vin.map CTxIn.prevout).map (valueAt env)).sum * tx.nTime
            ≤ ((tx.vin.map CTxIn.prevout).map (valueAt env)).sum * 2 ^ 32 :=
              mul_le_mul_of_nonneg_left hn hsum
          _ ≤ MAX_MONEY * 2 ^ 32 := mul_le_mul_of_nonneg_right htotal (by norm_num)
      have hcents : 0 ≤ ages.sum * CENT := mul_nonneg hnonneg (by decide)
      have hcoins : (ages.sum * CENT).tdiv COIN = ages.sum * CENT / COIN := Int.tdiv_eq_ediv_of_nonneg hcents
      have hdays : coinDays ages.sum = ages.sum * CENT / COIN / (24 * 60 * 60) := by
        unfold coinDays
        rw [hcoins]
        exact Int.tdiv_eq_ediv_of_nonneg (Int.ediv_nonneg hcents (by decide))
      show coinDays ages.sum < 10 ^ 14
      rw [hdays, hcoin]
      omega
  obtain ⟨hlow, hhigh⟩ := hbounds
  -- the value of an input, the age, and the steps of the reward
  refine ⟨?_, ?_, ?_⟩
  · intro txin htxin
    have hle : valueAt env txin.prevout ≤ ((tx.vin.map CTxIn.prevout).map (valueAt env)).sum := by
      refine List.single_le_sum ?_ _ (List.mem_map_of_mem (List.mem_map_of_mem htxin))
      intro x hx
      obtain ⟨o, -, rfl⟩ := List.mem_map.mp hx
      exact h.valueAt_nonneg o
    omega
  · unfold getuint64
    omega
  · have hquot : (nCoinAge * 33).tdiv (365 * 33 + 8) = nCoinAge * 33 / 12053 :=
      Int.tdiv_eq_ediv_of_nonneg (by omega)
    unfold rewardValues
    rw [hquot, hcent]
    intro n hn
    simp only [List.mem_cons, List.not_mem_nil, or_false] at hn
    omega

/-! ### Splitting a stake -/

/-- Two stakes of the same time have no more coin age than the stake that spends the inputs of both. -/
theorem getCoinAge_add (h : FilesChecked env.files) {A B C : CTransaction} (hA : A.isCoinBase = false)
    (hB : B.isCoinBase = false) (hC : C.isCoinBase = false) (hAC : A.nTime = C.nTime) (hBC : B.nTime = C.nTime)
    (hunion : (C.vin.map CTxIn.prevout).Perm (A.vin.map CTxIn.prevout ++ B.vin.map CTxIn.prevout)) {a b : Int}
    (ha : A.getCoinAge P env = some a) (hb : B.getCoinAge P env = some b) :
    ∃ c, C.getCoinAge P env = some c ∧ 0 ≤ a ∧ 0 ≤ b ∧ a + b ≤ c := by
  rw [getCoinAge_eq hA, CTransaction.centSeconds, Option.map_map, hAC] at ha
  rw [getCoinAge_eq hB, CTransaction.centSeconds, Option.map_map, hBC] at hb
  obtain ⟨as, has, rfl⟩ := Option.map_eq_some_iff.mp ha
  obtain ⟨bs, hbs, rfl⟩ := Option.map_eq_some_iff.mp hb
  obtain ⟨cs, hcs, hsum⟩ := centSeconds_union hunion has hbs
  have hapos := (centSeconds_bounds h has).1
  have hbpos := (centSeconds_bounds h hbs).1
  refine ⟨coinDays cs.sum, ?_, coinDays_nonneg hapos, coinDays_nonneg hbpos, ?_⟩
  · rw [getCoinAge_eq hC, CTransaction.centSeconds, hcs]
    rfl
  · rw [hsum]
    exact coinDays_add hapos hbpos

/-- The stake of the inputs of two stakes is rewarded at least as well as the two together, the reward grows
with the coin age, and for inputs of at most `MAX_MONEY` every value stays in its 64-bit type. -/
theorem stakeReward_sound (h : FilesChecked env.files) :
    (∀ A B C : CTransaction, A.isCoinStake = true → B.isCoinStake = true → C.isCoinStake = true →
        A.nTime = C.nTime → B.nTime = C.nTime →
        (C.vin.map CTxIn.prevout).Perm (A.vin.map CTxIn.prevout ++ B.vin.map CTxIn.prevout) →
        ∀ a b, A.getCoinAge P env = some a → B.getCoinAge P env = some b →
          ∃ c, C.getCoinAge P env = some c
            ∧ getProofOfStakeReward a + getProofOfStakeReward b ≤ getProofOfStakeReward c)
      ∧ (∀ a b, a ≤ b → getProofOfStakeReward a ≤ getProofOfStakeReward b)
      ∧ ∀ tx : CTransaction, tx.nTime < 2 ^ 32 →
          ((tx.vin.map CTxIn.prevout).map (valueAt env)).sum ≤ MAX_MONEY →
          ∀ nCoinAge, tx.getCoinAge P env = some nCoinAge → tx.CoinAgeFits P env nCoinAge := by
  refine ⟨?_, fun a b hab => getProofOfStakeReward_mono hab, fun tx htime htotal nCoinAge hage =>
    CTransaction.coinAge_fits h htime htotal hage⟩
  intro A B C hA hB hC hAC hBC hunion a b ha hb
  obtain ⟨c, hc, hapos, hbpos, hle⟩ := getCoinAge_add h (CTransaction.isCoinBase_of_isCoinStake hA)
    (CTransaction.isCoinBase_of_isCoinStake hB) (CTransaction.isCoinBase_of_isCoinStake hC) hAC hBC hunion ha hb
  exact ⟨c, hc, (getProofOfStakeReward_add hapos hbpos).trans (getProofOfStakeReward_mono hle)⟩

end CoinAge

namespace StakeSample

/-- A transaction with two outputs of 500000 and 300000 coins. -/
def txPrev : CTransaction where
  nTime := 1510340000
  vin := [⟨⟨7, 0⟩, [], UINT_MAX⟩]
  vout := [⟨500000 * COIN, [0x51]⟩, ⟨300000 * COIN, [0x51]⟩]

/-- Its block, which is not looked at beyond its time. -/
def block : CBlock where
  hashPrevBlock := 1
  hashMerkleRoot := 2
  nTime := 1510340000
  nBits := 0x1d00ffff
  nNonce := 0
  vtx := [txPrev]
  vchBlockSig := []

def env : ConnectEnv where
  files := { blocks := [⟨1, 8, block⟩] }
  txIndex := AList.insert 9 (CTxIndex.new ⟨1, 8, StoredBlock.firstTxPos ⟨1, 8, block⟩⟩ 2) ∅
  mempool := ∅
  nBestHeight := 1

/-- A stake of some of the outputs, a hundred days later. -/
def stake (ns : List Nat) : CTransaction where
  nTime := 1510340000 + 100 * 86400
  vin := ns.map (fun n => ⟨⟨9, n⟩, [], UINT_MAX⟩)
  vout := [CTxOut.empty, ⟨500000 * COIN, [0x51]⟩]

/-- The sample files. -/
theorem filesChecked : FilesChecked env.files := by
  intro r hr tx htx
  obtain rfl := List.mem_singleton.mp hr
  obtain rfl := List.mem_singleton.mp htx
  exact ⟨by simp [txPrev], by simp [txPrev], by decide, by decide, fun _ => by decide⟩

end StakeSample

open StakeSample RetargetSample in
/-- A hundred days of both outputs, in two stakes and in one: eighty million coin-days. -/
theorem stakeReward_sound_sample :
    getProofOfStakeReward 50000000 + getProofOfStakeReward 30000000 ≤ getProofOfStakeReward 80000000
      ∧ (stake [1, 0]).CoinAgeFits params env 80000000 := by
  obtain ⟨hsplit, -, hfits⟩ := stakeReward_sound (P := params) filesChecked
  have hwhole : (stake [1, 0]).getCoinAge params env = some 80000000 := by decide
  obtain ⟨c, hc, hle⟩ := hsplit (stake [0]) (stake [1]) (stake [1, 0]) rfl rfl rfl rfl rfl
    (List.Perm.swap _ _ _) 50000000 30000000 (by decide) (by decide)
  obtain rfl := Option.some.inj (hwhole.symm.trans hc)
  exact ⟨hle, hfits (stake [1, 0]) (by decide) (by decide) 80000000 hwhole⟩

end Peershares
