import Mathlib.Data.List.Sort
import Peershares.Model.Node

/-!
# Transactions from peers

`CTxMemPool::accept` with the inputs checked, the orphan transactions and the handling of a "tx"
message, from `main.cpp`.

Left out of a message are its calls to wallets and peers, which change neither the pool nor the
orphans, and the score of a peer that misbehaves.
-/

open Framework

namespace Peershares

/-! ### `AreInputsStandard` -/

/-- `ScriptSigArgsExpected`; `none` for a negative number. -/
def scriptSigArgsExpected : TxnOutType → List (List UInt8) → Option Nat
  | .TX_NONSTANDARD, _ => none
  | .TX_NULL_DATA, _ => some 1
  | .TX_PUBKEY, _ => some 1
  | .TX_PUBKEYHASH, _ => some 2
  | .TX_MULTISIG, (m :: _) :: _ => some (m.toNat + 1)
  | .TX_MULTISIG, _ => none
  | .TX_SCRIPTHASH, _ => some 1

/-- How many items an input has to leave on the stack; `none` when it is not standard. -/
def argsExpected (prevScript : CScript) (stack : List (List UInt8)) : Option Nat :=
  match solver prevScript with
  | (false, _, _) => none
  | (true, .TX_SCRIPTHASH, _) =>
    match stack.getLast? with
    | none => none
    | some subscript =>
      match solver subscript with
      | (false, _, _) => none
      | (true, .TX_SCRIPTHASH, _) => none
      | (true, whichType2, vSolutions2) => (scriptSigArgsExpected whichType2 vSolutions2).map (1 + ·)
  | (true, whichType, vSolutions) => scriptSigArgsExpected whichType vSolutions

/-- What `accept` reads besides the pool: the chain, the stack that `EvalScript` makes of the script
of an input (`none` when it fails), and the answer of the rate limiter for free transactions. -/
structure AcceptEnv where
  files : BlockFiles
  txIndex : TxIndexMap
  pindexBest : BlockPtr
  nBestHeight : Int
  evalScript : CTransaction → Nat → Option (List (List UInt8))
  fRateLimited : Bool

/-- `AreInputsStandard`. -/
def CTransaction.areInputsStandard (env : AcceptEnv) (mapInputs : MapPrevTx) (tx : CTransaction) :
    Result Bool :=
  if tx.isCoinBase then .ok true
  else do
    let standard ← tx.vin.zipIdx.mapM (fun (txin, i) => do
      let prev ← getOutputFor txin mapInputs
      pure (match env.evalScript tx i with
        | none => false
        | some stack => argsExpected prev.scriptPubKey stack = some stack.length))
    pure (standard.all id)

/-! ### `CTxMemPool::accept` -/

/-- A transaction that is not accepted, and what `accept` leaves in `*pfMissingInputs`. -/
structure Rejection where
  failure : Failure
  fMissingInputs : Bool := false

namespace CTxMemPool

/-- A check of `accept` that says nothing about missing inputs. -/
def verdict {α : Type} (r : Result α) : Except Rejection α :=
  match r with
  | .ok a => .ok a
  | .error failure => .error { failure }

def connectEnv (env : AcceptEnv) (pool : CTxMemPool) : ConnectEnv where
  files := env.files
  txIndex := env.txIndex
  mempool := pool.mapTx
  nBestHeight := env.nBestHeight

/-- The checks of `accept` on the inputs that were fetched. -/
def checkFetched (P : Params) (env : AcceptEnv) (pool : CTxMemPool) (tx : CTransaction)
    (mapInputs : MapPrevTx) : Result Unit := do
  let fStandard ← tx.areInputsStandard env mapInputs
  require (fStandard || P.fTestNet) 0 "CTxMemPool::accept() : nonstandard transaction input"
  let nValueIn ← tx.getValueIn mapInputs
  let nValueOut ← tx.getValueOut
  let nFees := nValueIn - nValueOut
  require (tx.getMinFee 1000 false .GMF_RELAY ≤ nFees) 0 "CTxMemPool::accept() : not enough fees"
  require (!(nFees < MIN_RELAY_TX_FEE && env.fRateLimited)) 0
    "CTxMemPool::accept() : free transaction rejected by rate limiter"
  match tx.connectInputs P (pool.connectEnv env) mapInputs ∅ CDiskTxPos.inMempool env.pindexBest
      false false true with
  | .error (.error _ _) => .error (.error 0 "CTxMemPool::accept() : ConnectInputs failed %s")
  | .error e => .error e
  | .ok _ => .ok ()

/-- The checks of `accept` with `fCheckInputs`. `FetchInputs` fails with a score exactly when it sets
`fInvalid`; otherwise inputs are missing. -/
def checkInputs (P : Params) (env : AcceptEnv) (pool : CTxMemPool) (tx : CTransaction) :
    Except Rejection Unit := do
  verdict (require (env.txIndex.lookup (P.hashTx tx)).isNone 0 "")
  match tx.fetchInputs (pool.connectEnv env) ∅ false false with
  | .ok mapInputs => verdict (pool.checkFetched P env tx mapInputs)
  | .error (.error 0 _) =>
    .error { failure := .error 0 "CTxMemPool::accept() : FetchInputs failed %s", fMissingInputs := true }
  | .error (.error _ _) =>
    .error { failure := .error 0 "CTxMemPool::accept() : FetchInputs found invalid tx %s" }
  | .error failure => .error { failure }

/-- `accept`: the pool with the transaction, or why not. That the database has the transaction is
asked before conflicts are looked for; both are refused without a message. -/
def acceptTx (P : Params) (env : AcceptEnv) (fCheckInputs : Bool) (pool : CTxMemPool)
    (tx : CTransaction) : Except Rejection CTxMemPool := do
  verdict (pool.acceptChecks P tx)
  if fCheckInputs then pool.checkInputs P env tx
  pure (pool.addUnchecked P tx)

end CTxMemPool

/-! ### Orphan transactions -/

def MAX_ORPHAN_TRANSACTIONS : Nat := MAX_BLOCK_SIZE / 100

/-- A "tx" message: the transaction in front, and the size of the message. -/
structure TxMsg where
  tx : CTransaction
  nSize : Nat
deriving DecidableEq, Repr

/-- `mapOrphanTransactionsByPrev`: by the hash of a missing parent, the orphans that spend it. -/
abbrev ByPrev := Map Uint256 (Map Uint256 TxMsg)

/-- `mapOrphanTransactions` and `mapOrphanTransactionsByPrev`. -/
structure Orphans where
  mapOrphanTransactions : Map Uint256 TxMsg := ∅
  mapOrphanTransactionsByPrev : ByPrev := ∅

namespace ByPrev

/-- `byPrev[hash]`, as a value. -/
def get (byPrev : ByPrev) (hash : Uint256) : Map Uint256 TxMsg := (byPrev.lookup hash).getD ∅

/-- `byPrev[hash]` makes an empty entry when there is none. -/
def touch (byPrev : ByPrev) (hash : Uint256) : ByPrev :=
  match byPrev.lookup hash with
  | some _ => byPrev
  | none => byPrev.insert hash ∅

/-- `byPrev[hashPrev].insert(make_pair(hash, pvMsg))`, which leaves an entry that is there. -/
def put (hash : Uint256) (pvMsg : TxMsg) (byPrev : ByPrev) (hashPrev : Uint256) : ByPrev :=
  match (byPrev.get hashPrev).lookup hash with
  | some _ => byPrev
  | none => byPrev.insert hashPrev ((byPrev.get hashPrev).insert hash pvMsg)

/-- An orphan is taken out under one parent; an entry that is empty then goes too. -/
def drop (hash : Uint256) (byPrev : ByPrev) (hashPrev : Uint256) : ByPrev :=
  if ((byPrev.get hashPrev).erase hash).entries.isEmpty then byPrev.erase hashPrev
  else byPrev.insert hashPrev ((byPrev.get hashPrev).erase hash)

end ByPrev

/-- The hashes of the transactions a transaction spends from, one for each input. -/
def CTransaction.prevHashes (tx : CTransaction) : List Uint256 :=
  tx.vin.map (fun txin => txin.prevout.hash)

namespace Orphans

def addOrphanTx (P : Params) (vMsg : TxMsg) (orphans : Orphans) : Orphans :=
  if (orphans.mapOrphanTransactions.lookup (P.hashTx vMsg.tx)).isSome then orphans
  else if 5000 < vMsg.nSize then orphans
  else
    { mapOrphanTransactions := orphans.mapOrphanTransactions.insert (P.hashTx vMsg.tx) vMsg
      mapOrphanTransactionsByPrev := vMsg.tx.prevHashes.foldl (ByPrev.put (P.hashTx vMsg.tx) vMsg)
        orphans.mapOrphanTransactionsByPrev }

def eraseOrphanTx (hash : Uint256) (orphans : Orphans) : Orphans :=
  match orphans.mapOrphanTransactions.lookup hash with
  | none => orphans
  | some pvMsg =>
    { mapOrphanTransactions := orphans.mapOrphanTransactions.erase hash
      mapOrphanTransactionsByPrev := pvMsg.tx.prevHashes.foldl (ByPrev.drop hash)
        orphans.mapOrphanTransactionsByPrev }

def size (orphans : Orphans) : Nat := orphans.mapOrphanTransactions.entries.length

/-- `lower_bound(randomhash)`, or the first entry when there is none. -/
def evicted (orphans : Orphans) (randomhash : Uint256) : Option Uint256 :=
  ((orphans.mapOrphanTransactions.keys.filter (randomhash ≤ ·)).min?).or
    orphans.mapOrphanTransactions.keys.min?

/-- The loop of `LimitOrphanTxSize`, for at most as many rounds as there are orphans; `rand` are the
values of `GetRandHash()`. -/
def limitLoop (nMaxOrphans : Nat) (rand : Nat → Uint256) : Nat → Orphans → Orphans
  | 0, orphans => orphans
  | nRounds + 1, orphans =>
    if orphans.size ≤ nMaxOrphans then orphans
    else
      match orphans.evicted (rand nRounds) with
      | none => orphans
      | some hash => limitLoop nMaxOrphans rand nRounds (orphans.eraseOrphanTx hash)

/-- `LimitOrphanTxSize`. -/
def limitOrphanTxSize (nMaxOrphans : Nat) (rand : Nat → Uint256) (orphans : Orphans) : Orphans :=
  limitLoop nMaxOrphans rand orphans.size orphans

end Orphans

/-! ### The "tx" message -/

/-- The pool and the orphans. -/
structure RelayState where
  pool : CTxMemPool := {}
  orphans : Orphans := {}

/-- The local variables of the resolving loop. -/
structure ResolveState where
  pool : CTxMemPool
  byPrev : ByPrev
  vWorkQueue : List Uint256
  vEraseQueue : List Uint256

/-- The orphans under a parent, in the order of the map. -/
def orphansIn (inner : Map Uint256 TxMsg) : List TxMsg :=
  (inner.entries.insertionSort (fun a b => a.1 ≤ b.1)).map (fun e => e.2)

/-- One orphan in the resolving loop. -/
def resolveOrphan (P : Params) (env : AcceptEnv) (st : ResolveState) (vMsg : TxMsg) : ResolveState :=
  match st.pool.acceptTx P env true vMsg.tx with
  | .ok pool =>
    { st with
      pool
      vWorkQueue := st.vWorkQueue ++ [P.hashTx vMsg.tx]
      vEraseQueue := st.vEraseQueue ++ [P.hashTx vMsg.tx] }
  | .error r =>
    if r.fMissingInputs then st
    -- an orphan that is invalid, or in the pool already
    else { st with vEraseQueue := st.vEraseQueue ++ [P.hashTx vMsg.tx] }

/-- The resolving loop from index `i` of the work queue on, for a number of rounds. -/
def resolveLoop (P : Params) (env : AcceptEnv) : Nat → Nat → ResolveState → ResolveState
  | 0, _, st => st
  | nRounds + 1, i, st =>
    match st.vWorkQueue[i]? with
    | none => st
    | some hashPrev =>
      let st := { st with byPrev := st.byPrev.touch hashPrev }
      resolveLoop P env nRounds (i + 1)
        ((orphansIn (st.byPrev.get hashPrev)).foldl (resolveOrphan P env) st)

/-- The resolving loop of a message whose transaction was accepted. No orphan is accepted twice, so it
takes at most one round more than there are orphans. -/
def resolve (P : Params) (env : AcceptEnv) (pool : CTxMemPool) (orphans : Orphans)
    (hash : Uint256) : ResolveState :=
  resolveLoop P env (orphans.size + 1) 0
    { pool
      byPrev := orphans.mapOrphanTransactionsByPrev
      vWorkQueue := [hash]
      vEraseQueue := [hash] }

/-- The handling of a "tx" message. -/
def processTx (P : Params) (env : AcceptEnv) (rand : Nat → Uint256) (vMsg : TxMsg) (s : RelayState) :
    RelayState :=
  match s.pool.acceptTx P env true vMsg.tx with
  | .ok pool =>
    let st := resolve P env pool s.orphans (P.hashTx vMsg.tx)
    { pool := st.pool
      orphans := st.vEraseQueue.foldl (fun orphans hash => orphans.eraseOrphanTx hash)
        { s.orphans with mapOrphanTransactionsByPrev := st.byPrev } }
  | .error r =>
    if r.fMissingInputs then
      { s with orphans := (s.orphans.addOrphanTx P vMsg).limitOrphanTxSize MAX_ORPHAN_TRANSACTIONS rand }
    else s

end Peershares
