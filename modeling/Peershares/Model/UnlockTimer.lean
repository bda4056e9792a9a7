import Peershares.Framework.Command
import Peershares.Model.Basic

/-!
# The unlock timer

`walletpassphrase`, `walletlock` and `ThreadCleanWalletPassphrase` of `bitcoinrpc.cpp`.

A call is one step: it runs in the thread of the RPC server. A timer thread reads the clock when it starts,
and holds `cs_nWalletUnlockTime` from then on except while it sleeps, so its steps are the reading of the
clock, the time up to its first `Sleep`, and the time between two calls of `Sleep`. When it wakes up is open:
the clock is an argument of each step. Times are `int64` and wrap around.

Which passphrase opens the wallet is a parameter; `ThreadTopUpKeyPool`, which neither locks nor unlocks, and
the memory of the timeout are left out. Threads are taken to be created.
-/

open Framework

namespace Peershares

/-! ### JSON values -/

/-- `json_spirit::Value`; of the values that no call here looks into only the type. -/
inductive Json where
  | obj
  | array
  | str (s : List UInt8)
  | bool (f : Bool)
  | int (n : Int)
  | real
  | null
deriving DecidableEq, Repr

/-- What an RPC call throws. -/
inductive RpcError where
  /-- `runtime_error`. -/
  | runtime (what : String)
  /-- `JSONRPCError(code, message)`. -/
  | rpc (code : Int) (message : String)
deriving DecidableEq, Repr

namespace Json

/-- `Value_type_name`. -/
def typeName : Json → String
  | obj => "obj"
  | array => "array"
  | str _ => "str"
  | bool _ => "bool"
  | int _ => "int"
  | real => "real"
  | null => "null"

/-- The failure of `check_type`. -/
def wrongType (v : Json) (expected : String) : RpcError :=
  .runtime ("value is type " ++ v.typeName ++ ", expected " ++ expected)

/-- `get_str`. -/
def getStr : Json → Except RpcError (List UInt8)
  | str s => .ok s
  | v => .error (v.wrongType "str")

/-- `get_bool`. -/
def getBool : Json → Except RpcError Bool
  | bool f => .ok f
  | v => .error (v.wrongType "bool")

/-- `get_int64`. -/
def getInt64 : Json → Except RpcError Int
  | int n => .ok n
  | v => .error (v.wrongType "int")

end Json

/-! ### The state -/

/-- A thread with `ThreadCleanWalletPassphrase`. -/
inductive TimerThread where
  /-- It has not run yet. -/
  | created (nSleepTime : Int)
  /-- It has read the clock and waits for `cs_nWalletUnlockTime`. -/
  | entering (nMyWakeTime : Int)
  /-- It is in `Sleep`. -/
  | sleeping (nMyWakeTime : Int)
  /-- It has ended. -/
  | ended (nMyWakeTime : Int)
deriving DecidableEq, Repr

/-- The lock of the wallet and the globals of the timer. -/
structure UnlockState where
  /-- `pwalletMain->IsCrypted()`. -/
  fCrypted : Bool
  /-- `vMasterKey` is empty. -/
  fLocked : Bool
  fWalletUnlockMintOnly : Bool := false
  nWalletUnlockTime : Int := 0
  /-- The timer threads, in the order in which they were created. -/
  threads : List TimerThread := []
deriving DecidableEq, Repr

namespace UnlockState

/-- At the start an encrypted wallet is locked. -/
def start (fCrypted : Bool) : UnlockState where
  fCrypted
  fLocked := fCrypted

/-- `IsLocked()`. -/
def isLocked (s : UnlockState) : Bool := s.fCrypted && s.fLocked

/-! ### The calls -/

/-- The `c_str()` of a string ends at the first zero. -/
def cStr (s : List UInt8) : List UInt8 := s.takeWhile (· ≠ 0)

/-- `walletpassphrase` from `Unlock` on. The parameters behind the passphrase are looked at only now. -/
def startTimer (params : List Json) : Command UnlockState RpcError Json := do
  Command.modify (fun s => { s with fLocked := false })
  let nSleepTime ← Command.lift (params.getD 1 .null).getInt64
  Command.modify (fun s => { s with threads := s.threads ++ [.created nSleepTime] })
  let fMintOnly ← Command.lift
    (if 2 < params.length then (params.getD 2 .null).getBool else .ok false)
  Command.modify (fun s => { s with fWalletUnlockMintOnly := fMintOnly })
  pure .null

/-- `walletpassphrase`; `opens` says which passphrases `Unlock` takes. -/
def walletpassphrase (opens : List UInt8 → Bool) (params : List Json) (fHelp : Bool) :
    Command UnlockState RpcError Json := do
  let s ← Command.get
  if s.fCrypted && (fHelp || params.length < 2 || 3 < params.length) then
    Command.fail (.runtime ("walletpassphrase <passphrase> <timeout> [mintonly]\n" ++
      "Stores the portfolio decryption key in memory for <timeout> seconds.\n" ++
      "mintonly is optional true/false allowing only block minting."))
  else if fHelp then pure (.bool true)
  else if !s.fCrypted then
    Command.fail (.rpc (-15) "Error: running with an unencrypted wallet, but walletpassphrase was called.")
  else if !s.isLocked then
    Command.fail (.rpc (-17) ("Error: Portfolio is already unlocked, " ++
      "use walletlock first if need to change unlock settings."))
  else do
    let strWalletPass ← Command.lift (params.getD 0 .null).getStr
    if cStr strWalletPass = [] then
      Command.fail (.runtime ("walletpassphrase <passphrase> <timeout>\n" ++
        "Stores the portfolio decryption key in memory for <timeout> seconds."))
    else if !opens (cStr strWalletPass) then
      Command.fail (.rpc (-14) "Error: The portfolio passphrase entered was incorrect.")
    else startTimer params

/-- `walletlock`. -/
def walletlock (params : List Json) (fHelp : Bool) : Command UnlockState RpcError Json := do
  let s ← Command.get
  if s.fCrypted && (fHelp || params.length ≠ 0) then
    Command.fail (.runtime ("walletlock\n" ++
      "Removes the portfolio encryption key from memory, locking the portfolio.\n" ++
      "After calling this method, you will need to call walletpassphrase again\n" ++
      "before being able to call any methods which require the portfolio to be unlocked."))
  else if fHelp then pure (.bool true)
  else if !s.fCrypted then
    Command.fail (.rpc (-15) "Error: running with an unencrypted portfolio, but walletlock was called.")
  else do
    Command.modify (fun s => { s with fLocked := true, nWalletUnlockTime := 0 })
    pure .null

/-! ### The threads -/

/-- `GetTimeMillis() + *((int64*)parg) * 1000`. -/
def wakeTime (nNow nSleepTime : Int) : Int := (nNow + (nSleepTime * 1000).bmod (2 ^ 64)).bmod (2 ^ 64)

/-- `nToSleep`. -/
def toSleep (s : UnlockState) (nNow : Int) : Int := (s.nWalletUnlockTime - nNow).bmod (2 ^ 64)

/-- The loop of thread `i` from its head to the next `Sleep` or to the end of the thread. -/
def loop (s : UnlockState) (i : Nat) (nMyWakeTime nNow : Int) : UnlockState :=
  if s.nWalletUnlockTime ≠ 0 && 0 < s.toSleep nNow then
    { s with threads := s.threads.set i (.sleeping nMyWakeTime) }
  else if s.nWalletUnlockTime ≠ 0 then
    { s with
      nWalletUnlockTime := 0
      fLocked := true
      threads := s.threads.set i (.ended nMyWakeTime) }
  else { s with threads := s.threads.set i (.ended nMyWakeTime) }

/-- One step of thread `i`, when the clock is at `nNow`. -/
def threadStep (s : UnlockState) (i : Nat) (nNow : Int) : UnlockState :=
  match s.threads[i]? with
  | some (.created nSleepTime) => { s with threads := s.threads.set i (.entering (wakeTime nNow nSleepTime)) }
  | some (.entering nMyWakeTime) =>
    if s.nWalletUnlockTime = 0 then
      { s with nWalletUnlockTime := nMyWakeTime }.loop i nMyWakeTime nNow
    else
      { s with
        nWalletUnlockTime := if s.nWalletUnlockTime < nMyWakeTime then nMyWakeTime else s.nWalletUnlockTime
        threads := s.threads.set i (.ended nMyWakeTime) }
  | some (.sleeping nMyWakeTime) => s.loop i nMyWakeTime nNow
  | some (.ended _) => s
  | none => s

end UnlockState

end Peershares
