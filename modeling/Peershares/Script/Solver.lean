import Peershares.Script.Push

/-!
# The forms that `Solver` accepts

`Solver` walks along a script and a template together. One template operation may stand for any number of
keys, and three of them look at the operand only.

The comparison is taken apart into steps: a template operation either consumes one operation of the script
(`matchTemplate_step`) or, for `OP_PUBKEYS`, a row of keys. What a step accepts is one equivalence for each
template operation (`matchOp_pubKey_iff`, `matchOp_smallData_iff`, …), and a template is the chain of its steps.
Only the keys need both directions with an induction each: what the loop takes are keys
(`matchPubKeys_sound`), and in front of a small integer it takes them all (`matchPubKeys_complete`).

A multisignature is matched first and then checked again, for the numbers to fit the keys (`multisigOk_iff`).

* `StandardForm` — the grammar, with the solutions
* `matchTemplate_pubKey_sound`, .. — what the templates match
* `solver_cases`, `solver_of_standardForm` — the two directions
* `solver_grammar` — `Solver` accepts the grammar
* `solver_nullData` — an operation that pushes nothing in the place of the data
-/

namespace Peershares

variable {script : CScript} {opcode : UInt8} {vch : List UInt8} {vSolutions : List (List UInt8)}

/-- `m key_1 .. key_k n OP_CHECKMULTISIG`, with `m` and `n` small integers. -/
def MultisigForm (opM opN : UInt8) (keys : List (List UInt8)) (script : CScript) : Prop :=
  isSmallInteger opM ∧ isSmallInteger opN ∧ (∀ key ∈ keys, 33 ≤ key.length ∧ key.length ≤ 120) ∧
    ∃ pushes, List.Forall₂ Push keys pushes ∧ script = opM :: (pushes.flatten ++ [opN, OP_CHECKMULTISIG])

/-- There are at most 125 bytes for each key. -/
theorem MultisigForm.length_le {opM opN : UInt8} {keys : List (List UInt8)} (h : MultisigForm opM opN keys script) :
    script.length ≤ keys.length * 125 + 3 := by
  obtain ⟨-, -, hsizes, pushes, hall, rfl⟩ := h
  have hrow := length_flatten_le_of_push hall fun key hkey => (hsizes key hkey).2
  rw [List.length_cons, List.length_append, List.length_cons, List.length_singleton]
  omega

/-- The solutions of a multisignature form. -/
def multisigSolutions (opM opN : UInt8) (keys : List (List UInt8)) : List (List UInt8) :=
  [UInt8.ofNat (decodeOP_N opM)] :: keys ++ [[UInt8.ofNat (decodeOP_N opN)]]

/-- The standard forms of a script, each with the operands in it. -/
inductive StandardForm : TxnOutType → List (List UInt8) → CScript → Prop
  | scriptHash {hash : List UInt8} (hlen : hash.length = 20) :
      StandardForm .TX_SCRIPTHASH [hash] (OP_HASH160 :: 20 :: (hash ++ [OP_EQUAL]))
  | pubKey {vch : List UInt8} {push : CScript} (hpush : Push vch push) (hmin : 33 ≤ vch.length)
      (hmax : vch.length ≤ 120) : StandardForm .TX_PUBKEY [vch] (push ++ [OP_CHECKSIG])
  | pubKeyHash {hash : List UInt8} {push : CScript} (hpush : Push hash push) (hlen : hash.length = 20) :
      StandardForm .TX_PUBKEYHASH [hash] (OP_DUP :: OP_HASH160 :: (push ++ [OP_EQUALVERIFY, OP_CHECKSIG]))
  | multisig {opM opN : UInt8} {keys : List (List UInt8)} {script : CScript} (h : MultisigForm opM opN keys script)
      (hpos : 1 ≤ decodeOP_N opM) (hle : decodeOP_N opM ≤ decodeOP_N opN) (hkeys : keys.length = decodeOP_N opN) :
      StandardForm .TX_MULTISIG (multisigSolutions opM opN keys) script
  | nullData {vch : List UInt8} {push : CScript} (hpush : Push vch push) (hmax : vch.length ≤ 80) :
      StandardForm .TX_NULL_DATA [] (OP_RETURN :: push)

/-! ### One step of the comparison -/

/-- At the end of the template the script has to end, too. -/
theorem matchTemplate_nil_iff {n : ℕ} {vSolutions' : List (List UInt8)} :
    matchTemplate n script [] vSolutions = some vSolutions' ↔ script = [] ∧ vSolutions = vSolutions' := by
  cases script with
  | nil =>
    rw [matchTemplate, Option.some.injEq]
    exact ⟨fun h => ⟨rfl, h⟩, And.right⟩
  | cons b script =>
    have hnone : getOp [] = none := rfl
    cases n with
    | zero => simp [matchTemplate]
    | succ n => simp [matchTemplate, hnone]

/-- One operation of a script against one of a template. -/
theorem matchTemplate_step {nRounds : ℕ} {tplate pc pc' : CScript} {opcode' : UInt8} {vch' : List UInt8}
    (hop : getOp script = some (opcode, vch, pc)) (hop' : getOp tplate = some (opcode', vch', pc'))
    (hne : opcode' ≠ OP_PUBKEYS) :
    matchTemplate (nRounds + 1) script tplate vSolutions =
      (matchOp opcode' vch' opcode vch vSolutions).bind (matchTemplate nRounds pc pc') := by
  cases script with
  | nil => cases hop
  | cons a script =>
    rw [matchTemplate, hop, hop']
    · simp only [if_neg hne]
      cases matchOp opcode' vch' opcode vch vSolutions <;> rfl
    · intro hnil
      cases hnil

/-- A match of a template operation. -/
theorem matchTemplate_cons_eq_some {n : ℕ} {opcode' : UInt8} {tplate : CScript} {vSolutions' : List (List UInt8)}
    (hlit : ¬ opcode' ≤ OP_PUSHDATA4) (hne : opcode' ≠ OP_PUBKEYS)
    (h : matchTemplate n script (opcode' :: tplate) vSolutions = some vSolutions') :
    ∃ k opcode vch pc vSolutions₁, n = k + 1 ∧ getOp script = some (opcode, vch, pc) ∧
      matchOp opcode' [] opcode vch vSolutions = some vSolutions₁ ∧
      matchTemplate k pc tplate vSolutions₁ = some vSolutions' := by
  cases n with
  | zero => cases script <;> simp [matchTemplate] at h
  | succ k =>
    cases hop : getOp script with
    | none =>
      have hnone : matchTemplate (k + 1) script (opcode' :: tplate) vSolutions = none := by
        cases script <;> simp [matchTemplate, hop]
      rw [hnone] at h
      cases h
    | some r =>
      obtain ⟨opcode, vch, pc⟩ := r
      rw [matchTemplate_step hop (getOp_cons hlit tplate) hne] at h
      obtain ⟨vSolutions₁, hmatch, hrest⟩ := Option.bind_eq_some_iff.mp h
      exact ⟨k, opcode, vch, pc, vSolutions₁, rfl, rfl, hmatch, hrest⟩

/-! ### Template operations -/

/-- `OP_PUBKEY` of a template takes a push of 33 to 120 bytes. -/
theorem matchOp_pubKey_iff {vSolutions' : List (List UInt8)} :
    matchOp OP_PUBKEY [] opcode vch vSolutions = some vSolutions' ↔
      33 ≤ vch.length ∧ vch.length ≤ 120 ∧ vSolutions' = vSolutions ++ [vch] := by
  unfold matchOp
  rw [if_pos rfl]
  split_ifs with hsize
  · simp only [Bool.or_eq_true, decide_eq_true_eq] at hsize
    constructor
    · intro h
      cases h
    · rintro ⟨hmin, hmax, -⟩
      omega
  · simp only [Bool.or_eq_true, decide_eq_true_eq, not_or, not_lt] at hsize
    rw [Option.some.injEq]
    exact ⟨fun h => ⟨hsize.1, hsize.2, h.symm⟩, fun h => h.2.2.symm⟩

/-- `OP_PUBKEYHASH` takes a push of 20 bytes. -/
theorem matchOp_pubKeyHash_iff {vSolutions' : List (List UInt8)} :
    matchOp OP_PUBKEYHASH [] opcode vch vSolutions = some vSolutions' ↔
      vch.length = 20 ∧ vSolutions' = vSolutions ++ [vch] := by
  unfold matchOp
  rw [if_neg (by decide), if_pos rfl]
  split_ifs with hsize
  · exact ⟨nofun, fun h => absurd h.1 hsize⟩
  · rw [Option.some.injEq]
    exact ⟨fun h => ⟨not_not.mp hsize, h.symm⟩, fun h => h.2.symm⟩

/-- `OP_SMALLINTEGER` takes `OP_0` and `OP_1` to `OP_16`. -/
theorem matchOp_smallInteger_iff {vSolutions' : List (List UInt8)} :
    matchOp OP_SMALLINTEGER [] opcode vch vSolutions = some vSolutions' ↔
      isSmallInteger opcode ∧ vSolutions' = vSolutions ++ [[UInt8.ofNat (decodeOP_N opcode)]] := by
  unfold matchOp
  rw [if_neg (by decide), if_neg (by decide), if_pos rfl]
  split_ifs with hsmall
  · rw [Option.some.injEq]
    exact ⟨fun h => ⟨hsmall, h.symm⟩, fun h => h.2.symm⟩
  · exact ⟨nofun, fun h => absurd h.1 hsmall⟩

/-- `OP_SMALLDATA` looks at the length of what was pushed only. -/
theorem matchOp_smallData_iff {vSolutions' : List (List UInt8)} :
    matchOp OP_SMALLDATA [] opcode vch vSolutions = some vSolutions' ↔ vch.length ≤ 80 ∧ vSolutions' = vSolutions := by
  unfold matchOp
  rw [if_neg (by decide), if_neg (by decide), if_neg (by decide), if_pos rfl]
  split_ifs with hsize
  · exact ⟨nofun, fun h => absurd h.1 (not_le.mpr hsize)⟩
  · rw [Option.some.injEq]
    exact ⟨fun h => ⟨not_lt.mp hsize, h.symm⟩, fun h => h.2.symm⟩

/-- Others must match exactly. -/
theorem matchOp_literal_iff {opcode' : UInt8} {vSolutions' : List (List UInt8)}
    (hlit : opcode' ∉ [OP_PUBKEY, OP_PUBKEYHASH, OP_SMALLINTEGER, OP_SMALLDATA]) :
    matchOp opcode' [] opcode vch vSolutions = some vSolutions' ↔
      opcode = opcode' ∧ vch = [] ∧ vSolutions' = vSolutions := by
  simp only [List.mem_cons, List.not_mem_nil, or_false, not_or] at hlit
  unfold matchOp
  rw [if_neg hlit.1, if_neg hlit.2.1, if_neg hlit.2.2.1, if_neg hlit.2.2.2]
  split_ifs with hne
  · simp only [Bool.or_eq_true, decide_eq_true_eq, ne_eq] at hne
    constructor
    · intro h
      cases h
    · rintro ⟨hop, hvch, -⟩
      exact absurd hne (not_or.mpr ⟨not_not.mpr hop, not_not.mpr hvch⟩)
  · simp only [Bool.or_eq_true, decide_eq_true_eq, ne_eq, not_or, not_not] at hne
    rw [Option.some.injEq]
    exact ⟨fun h => ⟨hne.1, hne.2, h.symm⟩, fun h => h.2.2.symm⟩

/-- A match of an operation that stands for itself. -/
theorem matchTemplate_literal {n : ℕ} {opcode' : UInt8} {tplate : CScript} {vSolutions' : List (List UInt8)}
    (hop : ¬ opcode' ≤ OP_PUSHDATA4) (hlit : opcode' ∉ [OP_PUBKEY, OP_PUBKEYHASH, OP_SMALLINTEGER, OP_SMALLDATA])
    (hne : opcode' ≠ OP_PUBKEYS) (h : matchTemplate n script (opcode' :: tplate) vSolutions = some vSolutions') :
    ∃ k pc, n = k + 1 ∧ script = opcode' :: pc ∧ matchTemplate k pc tplate vSolutions = some vSolutions' := by
  obtain ⟨k, opcode, vch, pc, vSolutions₁, rfl, hget, hmatch, hrest⟩ := matchTemplate_cons_eq_some hop hne h
  obtain ⟨rfl, rfl, rfl⟩ := (matchOp_literal_iff hlit).mp hmatch
  exact ⟨k, pc, rfl, (eq_cons_of_getOp hget hop).1, hrest⟩

/-- It does match itself. -/
theorem matchTemplate_literal_step {n : ℕ} {pc tplate : CScript} (hop : ¬ opcode ≤ OP_PUSHDATA4)
    (hlit : opcode ∉ [OP_PUBKEY, OP_PUBKEYHASH, OP_SMALLINTEGER, OP_SMALLDATA]) (hne : opcode ≠ OP_PUBKEYS) :
    matchTemplate (n + 1) (opcode :: pc) (opcode :: tplate) vSolutions = matchTemplate n pc tplate vSolutions := by
  rw [matchTemplate_step (getOp_cons hop pc) (getOp_cons hop tplate) hne, (matchOp_literal_iff hlit).mpr ⟨rfl, rfl, rfl⟩]
  rfl

/-! ### The keys -/

/-- Nothing else has an operand of the size of a key. -/
theorem le_of_getOp_of_length {rest : CScript} (h : getOp script = some (opcode, vch, rest)) (hlen : 33 ≤ vch.length) :
    opcode ≤ OP_PUSHDATA4 := by
  by_contra hop
  rw [(eq_cons_of_getOp h hop).2] at hlen
  exact absurd hlen (by decide)

/-- When the loop stops at a small integer, it has read pushes of keys. -/
theorem matchPubKeys_sound {n : ℕ} {pc pc₁ after : CScript} {opN : UInt8} {vchN : List UInt8}
    {vSolutions' : List (List UInt8)} (hget : getOp pc = some (opcode, vch, pc₁))
    (h : matchPubKeys n opcode vch pc₁ vSolutions = (opN, vchN, after, vSolutions')) (hsmall : isSmallInteger opN) :
    ∃ keys pushes, vSolutions' = vSolutions ++ keys ∧ List.Forall₂ Push keys pushes ∧
      (∀ key ∈ keys, 33 ≤ key.length ∧ key.length ≤ 120) ∧ pc = pushes.flatten ++ opN :: after := by
  -- a round that stops has read the small integer behind the keys
  have hstop : (opcode, vch, pc₁, vSolutions) = (opN, vchN, after, vSolutions') →
      ∃ keys pushes, vSolutions' = vSolutions ++ keys ∧ List.Forall₂ Push keys pushes ∧
        (∀ key ∈ keys, 33 ≤ key.length ∧ key.length ≤ 120) ∧ pc = pushes.flatten ++ opN :: after := by
    intro heq
    cases heq
    exact ⟨[], [], (List.append_nil _).symm, List.Forall₂.nil, fun _ hmem => absurd hmem List.not_mem_nil,
      (eq_cons_of_smallInteger hget hsmall).1⟩
  induction n generalizing pc pc₁ opcode vch vSolutions with
  | zero => exact hstop h
  | succ n ih =>
    rw [matchPubKeys] at h
    split_ifs at h with hsize
    · simp only [Bool.and_eq_true, decide_eq_true_eq] at hsize
      cases hnext : getOp pc₁ with
      | none =>
        rw [hnext] at h
        cases h
        exact absurd hsmall (by decide)
      -- it was a push of a key, and the loop goes on behind it
      | some r =>
        obtain ⟨opcode', vch', pc'⟩ := r
        rw [hnext] at h
        obtain ⟨push, hpush, rfl⟩ := push_of_getOp hget (le_of_getOp_of_length hget hsize.1)
        obtain ⟨keys, pushes, rfl, hall, hsizes, rfl⟩ := ih hnext h fun heq => by
          cases heq
          exact ⟨[], [], (List.append_nil _).symm, List.Forall₂.nil, fun _ hmem => absurd hmem List.not_mem_nil,
            (eq_cons_of_smallInteger hnext hsmall).1⟩
        refine ⟨vch :: keys, push :: pushes, ?_, List.Forall₂.cons hpush hall, ?_, ?_⟩
        · rw [List.append_assoc, List.singleton_append]
        · exact List.forall_mem_cons.mpr ⟨hsize, hsizes⟩
        · rw [List.flatten_cons, List.append_assoc]
    · exact hstop h

/-- There are at most as many pushes as bytes. -/
theorem length_le_of_forall₂_push {keys : List (List UInt8)} {pushes : List CScript}
    (hall : List.Forall₂ Push keys pushes) : keys.length ≤ pushes.flatten.length := by
  induction hall with
  | nil => exact le_rfl
  | cons hpush _ ih =>
    have hpos := List.length_pos_iff.mpr hpush.ne_nil
    rw [List.flatten_cons, List.length_append, List.length_cons]
    omega

/-- Pushes of keys in front of a small integer are all read. -/
theorem matchPubKeys_complete {keys : List (List UInt8)} {pushes : List CScript} {opN : UInt8} {after : CScript}
    (hall : List.Forall₂ Push keys pushes) (hsizes : ∀ key ∈ keys, 33 ≤ key.length ∧ key.length ≤ 120)
    (hsmall : isSmallInteger opN) {n : ℕ} (hn : keys.length ≤ n) (vSolutions : List (List UInt8)) :
    ∃ opcode vch pc, getOp (pushes.flatten ++ opN :: after) = some (opcode, vch, pc) ∧
      matchPubKeys n opcode vch pc vSolutions = (opN, [], after, vSolutions ++ keys) ∧
      keys.length ≤ pc.length + 1 := by
  induction hall generalizing n vSolutions with
  | nil =>
    refine ⟨opN, [], after, getOp_smallInteger hsmall after, ?_, Nat.zero_le _⟩
    rw [List.append_nil]
    cases n with
    | zero => rfl
    | succ n => rfl
  | @cons key push keys pushes hpush hall ih =>
    obtain ⟨hsize, hsizes⟩ := List.forall_mem_cons.mp hsizes
    obtain ⟨n, rfl⟩ : ∃ m, n = m + 1 := ⟨n - 1, by rw [List.length_cons] at hn; omega⟩
    -- the keys behind this one are read by the rounds that are left
    obtain ⟨opcode', vch', pc', hget', hrest, -⟩ := ih hsizes (Nat.le_of_succ_le_succ hn) (vSolutions ++ [key])
    obtain ⟨opcode, -, hget⟩ := hpush.getOp (pushes.flatten ++ opN :: after)
    refine ⟨opcode, key, pushes.flatten ++ opN :: after, ?_, ?_, ?_⟩
    · rw [List.flatten_cons, List.append_assoc]
      exact hget
    · rw [matchPubKeys, if_pos (by simpa using hsize), hget']
      simp only
      rw [hrest, List.append_assoc, List.singleton_append]
    · have hle := length_le_of_forall₂_push hall
      rw [List.length_append, List.length_cons]
      omega

/-! ### The templates -/

/-- A script whose first operation does not match. -/
theorem matchTemplate_eq_none {n : ℕ} {pc tplate : CScript} {opcode' : UInt8} (hlit : ¬ opcode' ≤ OP_PUSHDATA4)
    (hne : opcode' ≠ OP_PUBKEYS) (hget : getOp script = some (opcode, vch, pc))
    (hmatch : matchOp opcode' [] opcode vch vSolutions = none) :
    matchTemplate n script (opcode' :: tplate) vSolutions = none := by
  cases n with
  | zero =>
    cases script with
    | nil => cases hget
    | cons b script => rw [matchTemplate]; intro h; cases h
  | succ n =>
    rw [matchTemplate_step hget (getOp_cons hlit tplate) hne, hmatch]
    rfl

/-- What matches the first template pays to a key. -/
theorem matchTemplate_pubKey_sound {n : ℕ} (h : matchTemplate n script [OP_PUBKEY, OP_CHECKSIG] [] = some vSolutions) :
    StandardForm .TX_PUBKEY vSolutions script := by
  obtain ⟨k, opcode, vch, pc, _, rfl, hget, hmatch, hrest⟩ := matchTemplate_cons_eq_some (by decide) (by decide) h
  obtain ⟨hmin, hmax, rfl⟩ := matchOp_pubKey_iff.mp hmatch
  obtain ⟨push, hpush, rfl⟩ := push_of_getOp hget (le_of_getOp_of_length hget hmin)
  obtain ⟨k, pc, rfl, rfl, hend⟩ := matchTemplate_literal (by decide) (by decide) (by decide) hrest
  obtain ⟨rfl, rfl⟩ := matchTemplate_nil_iff.mp hend
  exact StandardForm.pubKey hpush hmin hmax

/-- What matches the second one pays to the hash of a key. -/
theorem matchTemplate_pubKeyHash_sound {n : ℕ}
    (h : matchTemplate n script [OP_DUP, OP_HASH160, OP_PUBKEYHASH, OP_EQUALVERIFY, OP_CHECKSIG] [] = some vSolutions) :
    StandardForm .TX_PUBKEYHASH vSolutions script := by
  obtain ⟨k, pc, rfl, rfl, h₁⟩ := matchTemplate_literal (by decide) (by decide) (by decide) h
  obtain ⟨k, pc, rfl, rfl, h₂⟩ := matchTemplate_literal (by decide) (by decide) (by decide) h₁
  obtain ⟨k, opcode, vch, pc, _, rfl, hget, hmatch, h₃⟩ := matchTemplate_cons_eq_some (by decide) (by decide) h₂
  obtain ⟨hlen, rfl⟩ := matchOp_pubKeyHash_iff.mp hmatch
  have hop : opcode ≤ OP_PUSHDATA4 := by
    by_contra hop
    rw [(eq_cons_of_getOp hget hop).2] at hlen
    exact absurd hlen (by decide)
  obtain ⟨push, hpush, rfl⟩ := push_of_getOp hget hop
  obtain ⟨k, pc, rfl, rfl, h₄⟩ := matchTemplate_literal (by decide) (by decide) (by decide) h₃
  obtain ⟨k, pc, rfl, rfl, h₅⟩ := matchTemplate_literal (by decide) (by decide) (by decide) h₄
  obtain ⟨rfl, rfl⟩ := matchTemplate_nil_iff.mp h₅
  exact StandardForm.pubKeyHash hpush hlen

/-- What follows `OP_RETURN` is one operation; the template does not ask that it is a push. -/
theorem matchTemplate_nullData_sound {n : ℕ} (h : matchTemplate n script [OP_RETURN, OP_SMALLDATA] [] = some vSolutions) :
    vSolutions = [] ∧ (StandardForm .TX_NULL_DATA [] script ∨
      ∃ opcode, ¬ opcode ≤ OP_PUSHDATA4 ∧ script = [OP_RETURN, opcode]) := by
  obtain ⟨k, pc, rfl, rfl, h₁⟩ := matchTemplate_literal (by decide) (by decide) (by decide) h
  obtain ⟨k, opcode, vch, pc, _, rfl, hget, hmatch, h₂⟩ := matchTemplate_cons_eq_some (by decide) (by decide) h₁
  obtain ⟨hmax, rfl⟩ := matchOp_smallData_iff.mp hmatch
  obtain ⟨rfl, rfl⟩ := matchTemplate_nil_iff.mp h₂
  refine ⟨rfl, ?_⟩
  by_cases hop : opcode ≤ OP_PUSHDATA4
  · obtain ⟨push, hpush, rfl⟩ := push_of_getOp hget hop
    rw [List.append_nil]
    exact Or.inl (StandardForm.nullData hpush hmax)
  · rw [(eq_cons_of_getOp hget hop).1]
    exact Or.inr ⟨opcode, hop, rfl⟩

/-- The keys and the number behind them are compared in one round. -/
theorem matchTemplate_pubKeys {n : ℕ} {tplate pc after : CScript} {opN : UInt8} {vchN : List UInt8}
    {vSolutions₁ : List (List UInt8)} (hget : getOp script = some (opcode, vch, pc))
    (hkeys : matchPubKeys (pc.length + 1) opcode vch pc vSolutions = (opN, vchN, after, vSolutions₁)) :
    matchTemplate (n + 1) script (OP_PUBKEYS :: OP_SMALLINTEGER :: tplate) vSolutions =
      (matchOp OP_SMALLINTEGER [] opN vchN vSolutions₁).bind (matchTemplate n after tplate) := by
  have hpubKeys : getOp (OP_PUBKEYS :: OP_SMALLINTEGER :: tplate) = some (OP_PUBKEYS, [], OP_SMALLINTEGER :: tplate) :=
    getOp_cons (by decide) _
  have hsmall : getOp (OP_SMALLINTEGER :: tplate) = some (OP_SMALLINTEGER, [], tplate) := getOp_cons (by decide) _
  cases script with
  | nil => cases hget
  | cons b script =>
    rw [matchTemplate, hget, hpubKeys]
    · simp only [if_true]
      rw [hkeys, hsmall]
      dsimp only
      cases matchOp OP_SMALLINTEGER [] opN vchN vSolutions₁ <;> rfl
    · intro hnil
      cases hnil

/-- What matches the third one has its keys between two small integers. -/
theorem matchTemplate_multisig_sound {n : ℕ}
    (h : matchTemplate n script [OP_SMALLINTEGER, OP_PUBKEYS, OP_SMALLINTEGER, OP_CHECKMULTISIG] [] = some vSolutions) :
    ∃ opM opN keys, MultisigForm opM opN keys script ∧ vSolutions = multisigSolutions opM opN keys := by
  obtain ⟨k, opM, vchM, pc, _, rfl, hget, hmatch, h₁⟩ := matchTemplate_cons_eq_some (by decide) (by decide) h
  obtain ⟨hsmallM, rfl⟩ := matchOp_smallInteger_iff.mp hmatch
  obtain ⟨rfl, rfl⟩ := eq_cons_of_smallInteger hget hsmallM
  cases k with
  | zero => cases pc <;> simp [matchTemplate] at h₁
  | succ k =>
    -- the template ends where the script does
    cases hnext : getOp pc with
    | none =>
      have hnone : matchTemplate (k + 1) pc [OP_PUBKEYS, OP_SMALLINTEGER, OP_CHECKMULTISIG]
          ([] ++ [[UInt8.ofNat (decodeOP_N opM)]]) = none := by
        cases pc <;> simp [matchTemplate, hnext]
      rw [hnone] at h₁
      cases h₁
    | some r =>
      obtain ⟨opcode, vch, pc₁⟩ := r
      cases hkeys : matchPubKeys (pc₁.length + 1) opcode vch pc₁ ([] ++ [[UInt8.ofNat (decodeOP_N opM)]]) with
      | mk opN r =>
        obtain ⟨vchN, after, vSolutions₁⟩ := r
        rw [matchTemplate_pubKeys hnext hkeys] at h₁
        -- the keys end at a small integer, and `OP_CHECKMULTISIG` comes last
        obtain ⟨_, hmatchN, h₂⟩ := Option.bind_eq_some_iff.mp h₁
        obtain ⟨hsmallN, rfl⟩ := matchOp_smallInteger_iff.mp hmatchN
        obtain ⟨keys, pushes, rfl, hall, hsizes, rfl⟩ := matchPubKeys_sound hnext hkeys hsmallN
        obtain ⟨k, pc, rfl, rfl, h₃⟩ := matchTemplate_literal (by decide) (by decide) (by decide) h₂
        obtain ⟨rfl, rfl⟩ := matchTemplate_nil_iff.mp h₃
        exact ⟨opM, opN, keys, ⟨hsmallM, hsmallN, hsizes, pushes, hall, rfl⟩, rfl⟩

/-- And every such script matches it. -/
theorem matchTemplate_multisig_complete {opM opN : UInt8} {keys : List (List UInt8)} {n : ℕ}
    (h : MultisigForm opM opN keys script) (hn : 3 ≤ n) :
    matchTemplate n script [OP_SMALLINTEGER, OP_PUBKEYS, OP_SMALLINTEGER, OP_CHECKMULTISIG] [] =
      some (multisigSolutions opM opN keys) := by
  obtain ⟨hsmallM, hsmallN, hsizes, pushes, hall, rfl⟩ := h
  obtain ⟨n, rfl⟩ : ∃ k, n = k + 3 := ⟨n - 3, by omega⟩
  have hopM := getOp_smallInteger hsmallM (pushes.flatten ++ [opN, OP_CHECKMULTISIG])
  have hcomplete := fun {n : ℕ} (hn : keys.length ≤ n) vSolutions =>
    @matchPubKeys_complete keys pushes opN [OP_CHECKMULTISIG] hall hsizes hsmallN n hn vSolutions
  obtain ⟨opcode, vch, pc, hget, -, hfuel⟩ := hcomplete le_rfl []
  obtain ⟨opcode', vch', pc', hget', hkeys, -⟩ := hcomplete hfuel ([] ++ [[UInt8.ofNat (decodeOP_N opM)]])
  obtain ⟨rfl, rfl, rfl⟩ : opcode = opcode' ∧ vch = vch' ∧ pc = pc' := by simpa using hget.symm.trans hget'
  rw [matchTemplate_step hopM (getOp_cons (by decide) _) (by decide), matchOp_smallInteger_iff.mpr ⟨hsmallM, rfl⟩,
    Option.bind_some, matchTemplate_pubKeys hget hkeys, matchOp_smallInteger_iff.mpr ⟨hsmallN, rfl⟩, Option.bind_some,
    matchTemplate_literal_step (by decide) (by decide) (by decide)]
  exact matchTemplate_nil_iff.mpr ⟨rfl, rfl⟩

/-! ### The additional checks -/

/-- A small integer is at most 16. -/
theorem decodeOP_N_le_of_smallInteger (h : isSmallInteger opcode) : decodeOP_N opcode ≤ 16 := by
  unfold isSmallInteger at h
  simp only [Bool.or_eq_true, Bool.and_eq_true, decide_eq_true_eq] at h
  unfold decodeOP_N
  split_ifs with hzero
  · exact Nat.zero_le 16
  · rcases h with h | ⟨-, hhigh⟩
    · exact absurd h hzero
    · have hhigh' : opcode.toNat ≤ 0x60 := hhigh
      omega

/-- The test of `Solver` on the numbers. -/
theorem multisigOk_iff {opM opN : UInt8} {keys : List (List UInt8)} (hM : isSmallInteger opM) (hN : isSmallInteger opN) :
    multisigOk (multisigSolutions opM opN keys) ↔
      1 ≤ decodeOP_N opM ∧ decodeOP_N opM ≤ decodeOP_N opN ∧ keys.length = decodeOP_N opN := by
  have hmaxM := decodeOP_N_le_of_smallInteger hM
  have hmaxN := decodeOP_N_le_of_smallInteger hN
  -- the numbers are at most 16, so a byte holds them
  have htoNat : ∀ {k : ℕ}, k ≤ 16 → (UInt8.ofNat k).toNat = k := by
    intro k hk
    rw [UInt8.toNat_ofNat']
    exact Nat.mod_eq_of_lt (by omega)
  have hle : ∀ {a b : ℕ}, a ≤ 16 → b ≤ 16 → (UInt8.ofNat a ≤ UInt8.ofNat b ↔ a ≤ b) := by
    intro a b ha hb
    rw [UInt8.le_iff_toNat_le, htoNat ha, htoNat hb]
  -- the last solution is the number of keys
  have hlast : (multisigSolutions opM opN keys).getLast?.bind List.head? = some (UInt8.ofNat (decodeOP_N opN)) := by
    unfold multisigSolutions
    rw [List.getLast?_append]
    rfl
  have hlen : (multisigSolutions opM opN keys).length - 2 = keys.length := by
    unfold multisigSolutions
    simp
  have hone : ∀ {k : ℕ}, k ≤ 16 → ((1 : UInt8) ≤ UInt8.ofNat k ↔ 1 ≤ k) := fun hk => hle (by decide) hk
  unfold multisigOk
  rw [hlast, hlen]
  change (decide ((1 : UInt8) ≤ UInt8.ofNat (decodeOP_N opM)) && decide ((1 : UInt8) ≤ UInt8.ofNat (decodeOP_N opN)) &&
    decide (UInt8.ofNat (decodeOP_N opM) ≤ UInt8.ofNat (decodeOP_N opN)) &&
    decide (keys.length = (UInt8.ofNat (decodeOP_N opN)).toNat)) = true ↔ _
  simp only [Bool.and_eq_true, decide_eq_true_eq]
  rw [hone hmaxM, hone hmaxN, hle hmaxM hmaxN, htoNat hmaxN]
  constructor
  · rintro ⟨⟨⟨hpos, -⟩, hMN⟩, hkeys⟩
    exact ⟨hpos, hMN, hkeys⟩
  · rintro ⟨hpos, hMN, hkeys⟩
    exact ⟨⟨⟨hpos, hpos.trans hMN⟩, hMN⟩, hkeys⟩

/-! ### `Solver` -/

/-- A script that begins with another operation does not pay to a script hash. -/
theorem not_isPayToScriptHash {pc : CScript} (hget : getOp script = some (opcode, vch, pc)) (hne : opcode ≠ OP_HASH160) :
    isPayToScriptHash script = false := by
  refine Bool.eq_false_iff.mpr fun htrue => ?_
  obtain ⟨hash, -, rfl⟩ := isPayToScriptHash_iff.mp htrue
  rw [getOp_cons (by decide)] at hget
  cases hget
  exact hne rfl

/-- A script that is not `P2SH` is compared with the templates. -/
theorem solver_eq_scan (h : isPayToScriptHash script = false) : solver script = solverScan script mTemplates := by
  unfold solver
  rw [h]
  rfl

/-- Every standard form is accepted, with its operands. -/
theorem solver_of_standardForm {typeRet : TxnOutType} (h : StandardForm typeRet vSolutions script) :
    solver script = (true, typeRet, vSolutions) := by
  cases h with
  -- `P2SH` is found before the templates are compared
  | @scriptHash hash hlen =>
    unfold solver
    rw [isPayToScriptHash_iff.mpr ⟨hash, hlen, rfl⟩, if_pos rfl]
    simp only [List.drop_succ_cons, List.drop_zero]
    rw [List.take_left' hlen]
  | @pubKey vch push hpush hmin hmax =>
    -- the first template matches at once
    obtain ⟨opcode, hop, hget⟩ := hpush.getOp [OP_CHECKSIG]
    have hne : opcode ≠ OP_HASH160 := by
      rintro rfl
      exact absurd hop (by decide)
    have hmatch : matchTemplate ((push ++ [OP_CHECKSIG]).length + 1) (push ++ [OP_CHECKSIG]) [OP_PUBKEY, OP_CHECKSIG] [] =
        some [vch] := by
      rw [List.length_append, List.length_singleton, matchTemplate_step hget (getOp_cons (by decide) _) (by decide),
        matchOp_pubKey_iff.mpr ⟨hmin, hmax, rfl⟩, Option.bind_some,
        matchTemplate_literal_step (by decide) (by decide) (by decide)]
      exact matchTemplate_nil_iff.mpr ⟨rfl, rfl⟩
    rw [solver_eq_scan (not_isPayToScriptHash hget hne), mTemplates, solverScan, hmatch]
    rfl
  | @pubKeyHash hash push hpush hlen =>
    obtain ⟨opcode, -, hget⟩ := hpush.getOp [OP_EQUALVERIFY, OP_CHECKSIG]
    have hdup := getOp_cons (show ¬ OP_DUP ≤ OP_PUSHDATA4 by decide)
      (OP_HASH160 :: (push ++ [OP_EQUALVERIFY, OP_CHECKSIG]))
    -- the first template fails on `OP_DUP`, and the second one matches
    have hfirst : matchTemplate ((OP_DUP :: OP_HASH160 :: (push ++ [OP_EQUALVERIFY, OP_CHECKSIG])).length + 1)
        (OP_DUP :: OP_HASH160 :: (push ++ [OP_EQUALVERIFY, OP_CHECKSIG])) [OP_PUBKEY, OP_CHECKSIG] [] = none :=
      matchTemplate_eq_none (by decide) (by decide) hdup (by decide)
    have hmatch : matchTemplate ((OP_DUP :: OP_HASH160 :: (push ++ [OP_EQUALVERIFY, OP_CHECKSIG])).length + 1)
        (OP_DUP :: OP_HASH160 :: (push ++ [OP_EQUALVERIFY, OP_CHECKSIG]))
        [OP_DUP, OP_HASH160, OP_PUBKEYHASH, OP_EQUALVERIFY, OP_CHECKSIG] [] = some [hash] := by
      rw [matchTemplate_literal_step (by decide) (by decide) (by decide), List.length_cons,
        matchTemplate_literal_step (by decide) (by decide) (by decide), List.length_cons,
        matchTemplate_step hget (getOp_cons (by decide) _) (by decide), matchOp_pubKeyHash_iff.mpr ⟨hlen, rfl⟩,
        Option.bind_some, List.length_append, List.length_cons, List.length_singleton, ← Nat.add_assoc,
        matchTemplate_literal_step (by decide) (by decide) (by decide),
        matchTemplate_literal_step (by decide) (by decide) (by decide)]
      exact matchTemplate_nil_iff.mpr ⟨rfl, rfl⟩
    rw [solver_eq_scan (not_isPayToScriptHash hdup (by decide)), mTemplates, solverScan, hfirst, solverScan, hmatch]
    rfl
  | @multisig opM opN keys _ hform hpos hle hkeys =>
    have hparts := hform
    obtain ⟨hM, hN, -, pushes, -, hscript⟩ := hparts
    -- the script begins with a number
    have hget : getOp script = some (opM, [], pushes.flatten ++ [opN, OP_CHECKMULTISIG]) := by
      rw [hscript]
      exact getOp_smallInteger hM _
    have hne : opM ≠ OP_HASH160 ∧ opM ≠ OP_DUP := by
      refine ⟨?_, ?_⟩ <;> rintro rfl <;> exact absurd hM (by decide)
    -- the first byte is a small integer: neither a push nor `OP_DUP`, so the third template is the first to fit
    have hfirst : matchTemplate (script.length + 1) script [OP_PUBKEY, OP_CHECKSIG] [] = none :=
      matchTemplate_eq_none (by decide) (by decide) hget rfl
    have hsecond : matchTemplate (script.length + 1) script
        [OP_DUP, OP_HASH160, OP_PUBKEYHASH, OP_EQUALVERIFY, OP_CHECKSIG] [] = none := by
      refine matchTemplate_eq_none (by decide) (by decide) hget ?_
      refine Option.eq_none_iff_forall_ne_some.mpr fun vSolutions' hmatch => ?_
      exact hne.2 ((matchOp_literal_iff (by decide)).mp hmatch).1
    have hmatch := matchTemplate_multisig_complete (n := script.length + 1) hform (by
      rw [hscript]
      simp)
    rw [solver_eq_scan (not_isPayToScriptHash hget hne.1), mTemplates, solverScan, hfirst, solverScan, hsecond,
      solverScan, hmatch]
    simp only
    rw [(multisigOk_iff hM hN).mpr ⟨hpos, hle, hkeys⟩]
    rfl
  | @nullData vch push hpush hmax =>
    -- the push behind `OP_RETURN`
    obtain ⟨opcode, -, hget⟩ := hpush.getOp []
    rw [List.append_nil] at hget
    have hreturn := getOp_cons (show ¬ OP_RETURN ≤ OP_PUSHDATA4 by decide) push
    -- the templates before fail on `OP_RETURN`
    have hnone : ∀ {opcode' : UInt8} {tplate : CScript}, ¬ opcode' ≤ OP_PUSHDATA4 → opcode' ≠ OP_PUBKEYS →
        matchOp opcode' [] OP_RETURN [] [] = none →
        matchTemplate ((OP_RETURN :: push).length + 1) (OP_RETURN :: push) (opcode' :: tplate) [] = none :=
      fun hlit hne hmatch => matchTemplate_eq_none hlit hne hreturn hmatch
    have hmatch : matchTemplate ((OP_RETURN :: push).length + 1) (OP_RETURN :: push) [OP_RETURN, OP_SMALLDATA] [] =
        some [] := by
      rw [matchTemplate_literal_step (by decide) (by decide) (by decide), List.length_cons,
        matchTemplate_step hget (getOp_cons (by decide) _) (by decide), matchOp_smallData_iff.mpr ⟨hmax, rfl⟩,
        Option.bind_some]
      exact matchTemplate_nil_iff.mpr ⟨rfl, rfl⟩
    rw [solver_eq_scan (not_isPayToScriptHash hreturn (by decide)), mTemplates, solverScan,
      hnone (by decide) (by decide) (by decide), solverScan, hnone (by decide) (by decide) (by decide), solverScan,
      hnone (by decide) (by decide) (by decide), solverScan, hmatch]
    rfl

/-- What the scan of the templates finds. -/
theorem solver_cases (script : CScript) :
    (∃ typeRet vSolutions, solver script = (true, typeRet, vSolutions) ∧
      (StandardForm typeRet vSolutions script ∨
        ∃ opcode, ¬ opcode ≤ OP_PUSHDATA4 ∧ script = [OP_RETURN, opcode])) ∨
    (∃ opM opN keys, solver script = (false, .TX_MULTISIG, multisigSolutions opM opN keys) ∧
      MultisigForm opM opN keys script) ∨
    solver script = (false, .TX_NONSTANDARD, []) := by
  -- `P2SH`, or the templates one after the other
  cases hp2sh : isPayToScriptHash script with
  | true =>
    obtain ⟨hash, hlen, rfl⟩ := isPayToScriptHash_iff.mp hp2sh
    have hform := StandardForm.scriptHash hlen
    exact Or.inl ⟨_, _, solver_of_standardForm hform, Or.inl hform⟩
  | false =>
    rw [solver_eq_scan hp2sh, mTemplates]
    -- a script that pays to a key
    cases h₁ : matchTemplate (script.length + 1) script [OP_PUBKEY, OP_CHECKSIG] [] with
    | some vSolutions =>
      refine Or.inl ⟨_, vSolutions, ?_, Or.inl (matchTemplate_pubKey_sound h₁)⟩
      rw [solverScan, h₁]
      rfl
    | none =>
      rw [solverScan, h₁]
      simp only
      -- a script that pays to the hash of a key
      cases h₂ : matchTemplate (script.length + 1) script
          [OP_DUP, OP_HASH160, OP_PUBKEYHASH, OP_EQUALVERIFY, OP_CHECKSIG] [] with
      | some vSolutions =>
        refine Or.inl ⟨_, vSolutions, ?_, Or.inl (matchTemplate_pubKeyHash_sound h₂)⟩
        rw [solverScan, h₂]
        rfl
      | none =>
        rw [solverScan, h₂]
        simp only
        -- keys between two numbers, which are tested
        cases h₃ : matchTemplate (script.length + 1) script
            [OP_SMALLINTEGER, OP_PUBKEYS, OP_SMALLINTEGER, OP_CHECKMULTISIG] [] with
        | some vSolutions =>
          obtain ⟨opM, opN, keys, hform, rfl⟩ := matchTemplate_multisig_sound h₃
          rw [solverScan, h₃]
          -- the one template with numbers to check after it has matched
          cases hok : multisigOk (multisigSolutions opM opN keys) with
          | true =>
            obtain ⟨hpos, hle, hkeys⟩ := (multisigOk_iff hform.1 hform.2.1).mp hok
            refine Or.inl ⟨_, _, ?_, Or.inl (StandardForm.multisig hform hpos hle hkeys)⟩
            simp only
            rw [hok]
            rfl
          | false =>
            refine Or.inr (Or.inl ⟨opM, opN, keys, ?_, hform⟩)
            simp only
            rw [hok]
            rfl
        | none =>
          rw [solverScan, h₃]
          simp only
          cases h₄ : matchTemplate (script.length + 1) script [OP_RETURN, OP_SMALLDATA] [] with
          | some vSolutions =>
            obtain ⟨rfl, hform⟩ := matchTemplate_nullData_sound h₄
            rw [solverScan, h₄]
            refine Or.inl ⟨.TX_NULL_DATA, [], rfl, hform⟩
          | none =>
            rw [solverScan, h₄]
            exact Or.inr (Or.inr rfl)

/-- `Solver` accepts the standard forms, with their operands, and nothing else; a script that it does not accept
is nonstandard. Two things are left open here: what it does with `OP_RETURN` and one operation that is not a push,
and the type and the solutions it leaves for a multisignature form with numbers that do not fit. -/
theorem solver_grammar (script : CScript) :
    (∀ typeRet vSolutions, StandardForm typeRet vSolutions script →
      solver script = (true, typeRet, vSolutions)) ∧
    (∀ typeRet vSolutions, solver script = (true, typeRet, vSolutions) →
      StandardForm typeRet vSolutions script ∨ ∃ opcode, ¬ opcode ≤ OP_PUSHDATA4 ∧ script = [OP_RETURN, opcode]) ∧
    (∀ typeRet vSolutions, solver script = (false, typeRet, vSolutions) →
      typeRet = .TX_NONSTANDARD ∧ vSolutions = [] ∨ ∃ opM opN keys, MultisigForm opM opN keys script) := by
  refine ⟨fun _ _ h => solver_of_standardForm h, fun typeRet vSolutions h => ?_, fun typeRet vSolutions h => ?_⟩
  · -- an accepted script is of a standard form
    rcases solver_cases script with ⟨typeRet', vSolutions', heq, hform⟩ | ⟨_, _, _, heq, -⟩ | heq
    · rw [heq] at h
      cases h
      exact hform
    · rw [heq] at h
      cases h
    · rw [heq] at h
      cases h
  · -- and a refused one leaves no solutions, but for a multisignature form
    rcases solver_cases script with ⟨_, _, heq, -⟩ | ⟨opM, opN, keys, -, hform⟩ | heq
    · rw [heq] at h
      cases h
    · exact Or.inr ⟨opM, opN, keys, hform⟩
    · rw [heq] at h
      cases h
      exact Or.inl ⟨rfl, rfl⟩

/-- A payment to an address. -/
theorem solver_grammar_pubKeyHash :
    solver (OP_DUP :: OP_HASH160 :: (20 :: List.replicate 20 7 ++ [OP_EQUALVERIFY, OP_CHECKSIG])) =
      (true, .TX_PUBKEYHASH, [List.replicate 20 7]) :=
  (solver_grammar _).1 _ _ (StandardForm.pubKeyHash (Push.direct (by decide)) rfl)

/-- `OP_RETURN` and `OP_DUP` is taken for a data output, with no solutions; a data output with data has none,
either. -/
theorem solver_nullData :
    solver [OP_RETURN, OP_DUP] = (true, .TX_NULL_DATA, []) ∧
    solver [OP_RETURN, 0x01, 0x07] = (true, .TX_NULL_DATA, []) := by
  decide

end Peershares
