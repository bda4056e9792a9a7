import Peershares.Model.Basic

/-!
# Messages on the wire

`CDataStream` of `serialize.h`, the message header of `protocol.h`, and the two ends of a connection:
`BeginMessage` and `EndMessage` on the send buffer, `ProcessMessages` on the receive buffer.

A stream keeps what was read at the front of its vector and counts it in `nReadPos`. Buffers are far
below the range of this counter: the socket thread closes a connection with more than
`ReceiveBufferSize()` bytes in `vRecv`.

`ProcessMessage` works on a copy of the payload. All it can do to the receive buffer is to close the
connection (`CloseSocketDisconnect`), which clears the buffer; whether it does is a parameter, and may
depend on all messages so far. A node that shuts down is not modelled.
-/

namespace Peershares

/-- `MAX_SIZE`. -/
def MAX_SIZE : Nat := 0x02000000

/-- `GetMessageStart`. Other bytes are for clocks up to the switch times, in 2012. -/
def getMessageStart (P : Params) : List UInt8 :=
  if P.fTestNet then [0xcb, 0xf2, 0xc0, 0xef] else [0xe6, 0xe8, 0xe9, 0xe5]

theorem length_getMessageStart (P : Params) : (getMessageStart P).length = 4 := by
  unfold getMessageStart
  split_ifs <;> rfl

/-! ### Byte streams -/

/-- `CDataStream`. -/
structure CDataStream where
  vch : List UInt8 := []
  nReadPos : Nat := 0
deriving DecidableEq, Repr

namespace CDataStream

/-- What is left to read, from `begin()` to `end()`. -/
def data (s : CDataStream) : List UInt8 := s.vch.drop s.nReadPos

def size (s : CDataStream) : Nat := s.vch.length - s.nReadPos

/-- `erase(begin(), begin() + n)`. -/
def eraseFront (s : CDataStream) (n : Nat) : CDataStream :=
  if s.nReadPos + n = s.vch.length then {} else { s with nReadPos := s.nReadPos + n }

/-- `insert(begin(), first, last)`: into the part that was read when it fits there. -/
def insertFront (s : CDataStream) (bytes : List UInt8) : CDataStream :=
  if bytes.length ≤ s.nReadPos then
    { vch := s.vch.take (s.nReadPos - bytes.length) ++ bytes ++ s.vch.drop s.nReadPos
      nReadPos := s.nReadPos - bytes.length }
  else { s with vch := s.vch.take s.nReadPos ++ bytes ++ s.vch.drop s.nReadPos }

/-- `Compact`. -/
def compact (s : CDataStream) : CDataStream := { vch := s.vch.drop s.nReadPos }

/-- The position after `nSize` bytes; at the end the buffer is cleared. -/
def advance (s : CDataStream) (nSize : Nat) : CDataStream :=
  if s.vch.length ≤ s.nReadPos + nSize then {} else { s with nReadPos := s.nReadPos + nSize }

/-- `read`. -/
def read (s : CDataStream) (nSize : Nat) : Result (List UInt8 × CDataStream) :=
  if s.vch.length < s.nReadPos + nSize then
    .error (.exception "CDataStream::read() : end of data")
  else .ok ((s.vch.drop s.nReadPos).take nSize, s.advance nSize)

/-- `ignore`. -/
def ignore (s : CDataStream) (nSize : Nat) : Result CDataStream :=
  if s.vch.length < s.nReadPos + nSize then
    .error (.exception "CDataStream::ignore() : end of data")
  else .ok (s.advance nSize)

/-- `write`. -/
def write (s : CDataStream) (bytes : List UInt8) : CDataStream := { s with vch := s.vch ++ bytes }

/-- `memcpy(&s[pos], ...)`. -/
def overwrite (s : CDataStream) (pos : Nat) (bytes : List UInt8) : CDataStream :=
  { s with vch := s.vch.take (s.nReadPos + pos) ++ bytes ++
      s.vch.drop (s.nReadPos + pos + bytes.length) }

/-- `resize(n)` to a smaller size. -/
def resize (s : CDataStream) (n : Nat) : CDataStream := { s with vch := s.vch.take (n + s.nReadPos) }

end CDataStream

/-- `std::search`: the position of the first occurrence, or the end. -/
def search (pattern : List UInt8) : List UInt8 → Nat
  | [] => 0
  | a :: as => if pattern.isPrefixOf (a :: as) then 0 else search pattern as + 1

/-! ### Headers -/

/-- An `unsigned int` as four bytes, the lowest first. -/
def toBytes32 (n : Nat) : List UInt8 :=
  [UInt8.ofNat n, UInt8.ofNat (n / 256), UInt8.ofNat (n / 256 ^ 2), UInt8.ofNat (n / 256 ^ 3)]

def ofBytes32 : List UInt8 → Nat
  | [b₀, b₁, b₂, b₃] => b₀.toNat + 256 * (b₁.toNat + 256 * (b₂.toNat + 256 * b₃.toNat))
  | _ => 0

/-- `CMessageHeader`. -/
structure CMessageHeader where
  pchMessageStart : List UInt8
  pchCommand : List UInt8
  nMessageSize : Nat
  nChecksum : Nat
deriving DecidableEq, Repr

namespace CMessageHeader

def COMMAND_SIZE : Nat := 12

/-- The serialized size. -/
def nHeaderSize : Nat := 4 + COMMAND_SIZE + 4 + 4

/-- `strncpy(pchCommand, pszCommand, COMMAND_SIZE)`. -/
def padCommand (pszCommand : List UInt8) : List UInt8 :=
  (pszCommand ++ List.replicate COMMAND_SIZE 0).take COMMAND_SIZE

/-- `CMessageHeader(pszCommand, nMessageSizeIn)`. -/
def ofCommand (P : Params) (pszCommand : List UInt8) (nMessageSizeIn : Nat) : CMessageHeader where
  pchMessageStart := getMessageStart P
  pchCommand := padCommand pszCommand
  nMessageSize := nMessageSizeIn
  nChecksum := 0

/-- `GetCommand`. -/
def getCommand (hdr : CMessageHeader) : List UInt8 :=
  if hdr.pchCommand[COMMAND_SIZE - 1]? = some 0 then hdr.pchCommand.takeWhile (· ≠ 0)
  else hdr.pchCommand

/-- The loop of `IsValid` over the command. A `char` above `0x7E` is negative or too large. -/
def commandOk : List UInt8 → Bool
  | [] => true
  | c :: cs =>
    if c = 0 then cs.all (· = 0) else 0x20 ≤ c && c ≤ 0x7E && commandOk cs

/-- `IsValid`. -/
def isValid (P : Params) (hdr : CMessageHeader) : Bool :=
  hdr.pchMessageStart = getMessageStart P && commandOk hdr.pchCommand && hdr.nMessageSize ≤ MAX_SIZE

/-- `s << hdr`. -/
def serialize (hdr : CMessageHeader) : List UInt8 :=
  hdr.pchMessageStart ++ hdr.pchCommand ++ toBytes32 hdr.nMessageSize ++ toBytes32 hdr.nChecksum

/-- `s >> hdr`. -/
def unserialize (s : CDataStream) : Result (CMessageHeader × CDataStream) := do
  let (pchMessageStart, s) ← s.read 4
  let (pchCommand, s) ← s.read COMMAND_SIZE
  let (nMessageSize, s) ← s.read 4
  let (nChecksum, s) ← s.read 4
  pure (⟨pchMessageStart, pchCommand, ofBytes32 nMessageSize, ofBytes32 nChecksum⟩, s)

end CMessageHeader

/-- A message: its command and its payload. -/
structure NetMessage where
  command : List UInt8
  payload : List UInt8
deriving DecidableEq, Repr

/-! ### Sending -/

/-- The send side of a `CNode`; `nHeaderStart` and `nMessageStart` are `none` for `-1`. -/
structure SendState where
  vSend : CDataStream := {}
  nHeaderStart : Option Nat := none
  nMessageStart : Option Nat := none
deriving DecidableEq, Repr

namespace SendState

/-- `AbortMessage`. -/
def abortMessage (s : SendState) : SendState :=
  match s.nHeaderStart with
  | none => s
  | some nHeaderStart => { vSend := s.vSend.resize nHeaderStart }

/-- `BeginMessage`. -/
def beginMessage (P : Params) (pszCommand : List UInt8) (s : SendState) : SendState :=
  let s := if s.nHeaderStart.isSome then s.abortMessage else s
  let vSend := s.vSend.write (CMessageHeader.ofCommand P pszCommand 0).serialize
  { vSend, nHeaderStart := some s.vSend.size, nMessageStart := some vSend.size }

/-- `nChecksum` of a payload: the first four bytes of its hash. -/
def nChecksum (hash : List UInt8 → Uint256) (payload : List UInt8) : Nat := hash payload % 2 ^ 32

/-- `EndMessage`; `fDrop` is the answer of `-dropmessagestest`. -/
def endMessage (hash : List UInt8 → Uint256) (fDrop : Bool) (s : SendState) : SendState :=
  if fDrop then s.abortMessage
  else
    match s.nHeaderStart, s.nMessageStart with
    | some nHeaderStart, some nMessageStart =>
      let nSize := (s.vSend.size - nMessageStart) % 2 ^ 32
      -- the fields of the header are at 16 and 20
      let vSend := s.vSend.overwrite (nHeaderStart + 16) (toBytes32 nSize)
      { vSend := vSend.overwrite (nHeaderStart + 20)
          (toBytes32 (nChecksum hash (vSend.data.drop nMessageStart))) }
    | _, _ => s

/-- `PushMessage`, with the serialized arguments. -/
def pushMessage (P : Params) (hash : List UInt8 → Uint256) (fDrop : Bool) (msg : NetMessage)
    (s : SendState) : SendState :=
  let s := s.beginMessage P msg.command
  endMessage hash fDrop { s with vSend := s.vSend.write msg.payload }

end SendState

/-! ### Receiving -/

/-- The receive side of a `CNode`, with the messages that went to `ProcessMessage`. `fOpen` says that
`hSocket` is a socket. -/
structure RecvState where
  vRecv : CDataStream := {}
  fOpen : Bool := true
  dispatched : List NetMessage := []
deriving DecidableEq, Repr

namespace RecvState

/-- `ProcessMessage`, which may close the connection. -/
def processMessage (closes : List NetMessage → Bool) (s : RecvState) (msg : NetMessage) : RecvState :=
  let dispatched := s.dispatched ++ [msg]
  if closes dispatched && s.fOpen then { vRecv := {}, fOpen := false, dispatched }
  else { s with dispatched }

/-- The loop of `ProcessMessages`, for a number of rounds. -/
def processLoop (P : Params) (hash : List UInt8 → Uint256) (closes : List NetMessage → Bool) :
    Nat → RecvState → Result RecvState
  | 0, s => .ok s
  | nRounds + 1, s =>
    let nStart := search (getMessageStart P) s.vRecv.data
    if s.vRecv.size - nStart < CMessageHeader.nHeaderSize then
      if CMessageHeader.nHeaderSize < s.vRecv.size then
        -- "PROCESSMESSAGE MESSAGESTART NOT FOUND"
        .ok { s with vRecv := s.vRecv.eraseFront (s.vRecv.size - CMessageHeader.nHeaderSize) }
      else .ok s
    else do
      let vRecv := s.vRecv.eraseFront nStart
      let vHeaderSave := vRecv.data.take CMessageHeader.nHeaderSize
      let (hdr, vRecv) ← CMessageHeader.unserialize vRecv
      let s := { s with vRecv }
      if !hdr.isValid P then processLoop P hash closes nRounds s
      else if MAX_SIZE < hdr.nMessageSize then processLoop P hash closes nRounds s
      else if vRecv.size < hdr.nMessageSize then
        -- "Rewind and wait for rest of message"
        .ok { s with vRecv := vRecv.insertFront vHeaderSave }
      else
        let payload := vRecv.data.take hdr.nMessageSize
        if SendState.nChecksum hash payload ≠ hdr.nChecksum then processLoop P hash closes nRounds s
        else do
          let vRecv ← vRecv.ignore hdr.nMessageSize
          processLoop P hash closes nRounds
            (processMessage closes { s with vRecv } ⟨hdr.getCommand, payload⟩)

/-- `ProcessMessages`. Every round but the last takes a header off the buffer, so there are no more
rounds than bytes. -/
def processMessages (P : Params) (hash : List UInt8 → Uint256) (closes : List NetMessage → Bool)
    (s : RecvState) : Result RecvState :=
  if s.vRecv.size = 0 then .ok s
  else do
    let s ← processLoop P hash closes (s.vRecv.size + 1) s
    pure { s with vRecv := s.vRecv.compact }

/-- The socket thread appends what it received, if the socket is there, and the message thread runs
`ProcessMessages`. -/
def receive (P : Params) (hash : List UInt8 → Uint256) (closes : List NetMessage → Bool)
    (s : RecvState) (chunk : List UInt8) : Result RecvState :=
  processMessages P hash closes (if s.fOpen then { s with vRecv := s.vRecv.write chunk } else s)

end RecvState

end Peershares
