import Peershares.Model.Serialize

/-!
# Addresses in the network

`CNetAddr`, `CService` of `netbase.cpp` and `CAddress` of `protocol.h`: the tests on an address that
`IsRoutable` is made of, and its group. An address has 16 bytes; IPv4 addresses are mapped into IPv6.
-/

namespace Peershares

/-- `pchIPv4`: the first bytes of a mapped IPv4 address. -/
def pchIPv4 : List UInt8 := [0, 0, 0, 0, 0, 0, 0, 0, 0, 0, 0xff, 0xff]

/-- `CNetAddr`: the bytes in the order of the network. -/
structure CNetAddr where
  ip : List UInt8
  length_ip : ip.length = 16
deriving DecidableEq, Repr

namespace CNetAddr

/-- `CNetAddr()`. -/
def none : CNetAddr := ⟨List.replicate 16 0, by simp⟩

/-- A mapped IPv4 address. -/
def ofIPv4 (a b c d : UInt8) : CNetAddr := ⟨pchIPv4 ++ [a, b, c, d], rfl⟩

/-- `GetByte(n)`, counted from the end. -/
def getByte (addr : CNetAddr) (n : ℕ) : UInt8 := addr.ip.getD (15 - n) 0

/-- `memcmp(ip, pch, sizeof(pch)) == 0`. -/
def startsWith (addr : CNetAddr) (pch : List UInt8) : Bool := addr.ip.take pch.length == pch

def isIPv4 (addr : CNetAddr) : Bool := addr.startsWith pchIPv4

/-- Private networks. -/
def isRFC1918 (addr : CNetAddr) : Bool :=
  addr.isIPv4 && (addr.getByte 3 == 10 || (addr.getByte 3 == 192 && addr.getByte 2 == 168) ||
    (addr.getByte 3 == 172 && (16 ≤ addr.getByte 2 && addr.getByte 2 ≤ 31)))

/-- Autoconfiguration. -/
def isRFC3927 (addr : CNetAddr) : Bool :=
  addr.isIPv4 && (addr.getByte 3 == 169 && addr.getByte 2 == 254)

/-- Documentation. -/
def isRFC3849 (addr : CNetAddr) : Bool :=
  addr.getByte 15 == 0x20 && addr.getByte 14 == 0x01 && addr.getByte 13 == 0x0d && addr.getByte 12 == 0xb8

/-- 6to4 tunnels. -/
def isRFC3964 (addr : CNetAddr) : Bool := addr.getByte 15 == 0x20 && addr.getByte 14 == 0x02

/-- The well-known prefix. -/
def isRFC6052 (addr : CNetAddr) : Bool := addr.startsWith [0, 0x64, 0xff, 0x9b, 0, 0, 0, 0, 0, 0, 0, 0]

/-- Teredo tunnels. -/
def isRFC4380 (addr : CNetAddr) : Bool :=
  addr.getByte 15 == 0x20 && addr.getByte 14 == 0x01 && addr.getByte 13 == 0 && addr.getByte 12 == 0

/-- Autoconfiguration in IPv6. -/
def isRFC4862 (addr : CNetAddr) : Bool := addr.startsWith [0xfe, 0x80, 0, 0, 0, 0, 0, 0]

/-- Unique local addresses. -/
def isRFC4193 (addr : CNetAddr) : Bool := addr.getByte 15 &&& 0xfe == 0xfc

/-- Translated IPv4 addresses. -/
def isRFC6145 (addr : CNetAddr) : Bool := addr.startsWith [0, 0, 0, 0, 0, 0, 0, 0, 0xff, 0xff, 0, 0]

/-- Hash identifiers. -/
def isRFC4843 (addr : CNetAddr) : Bool :=
  addr.getByte 15 == 0x20 && addr.getByte 14 == 0x01 && addr.getByte 13 == 0x00 &&
    addr.getByte 12 &&& 0xf0 == 0x10

def isLocal (addr : CNetAddr) : Bool :=
  (addr.isIPv4 && (addr.getByte 3 == 127 || addr.getByte 3 == 0)) ||
    addr.startsWith [0, 0, 0, 0, 0, 0, 0, 0, 0, 0, 0, 0, 0, 0, 0, 1]

def isValid (addr : CNetAddr) : Bool :=
  -- addresses shifted by three bytes, from old versions
  !addr.startsWith (pchIPv4.drop 3) &&
    !addr.startsWith (List.replicate 16 0) && !addr.isRFC3849 &&
    !(addr.isIPv4 && (addr.ip.drop 12 == List.replicate 4 0xff || addr.ip.drop 12 == List.replicate 4 0))

def isRoutable (addr : CNetAddr) : Bool :=
  addr.isValid && !(addr.isRFC1918 || addr.isRFC3927 || addr.isRFC4862 || addr.isRFC4193 ||
    addr.isRFC4843 || addr.isLocal)

/-- The loop at the end of `GetGroup`: the first `nBits` bits from the byte `nStartByte` on. -/
def groupBytes (addr : CNetAddr) (nStartByte nBits : ℕ) : List UInt8 :=
  (List.range (nBits / 8)).map (fun i => addr.getByte (15 - (nStartByte + i))) ++
    if 0 < nBits % 8 then
      [addr.getByte (15 - (nStartByte + nBits / 8)) ||| UInt8.ofNat (2 ^ (nBits % 8) - 1)]
    else []

/-- `GetGroup`: the class of the address, and the bits that tell groups of one class apart. -/
def getGroup (addr : CNetAddr) : List UInt8 :=
  -- the class 254 of local addresses is overwritten, as they are not routable
  if !addr.isRoutable then [255]
  else if addr.isIPv4 || addr.isRFC6145 || addr.isRFC6052 then 1 :: addr.groupBytes 12 16
  else if addr.isRFC3964 then 1 :: addr.groupBytes 2 16
  else if addr.isRFC4380 then [1, addr.getByte 3 ^^^ 0xff, addr.getByte 2 ^^^ 0xff]
  else if addr.getByte 15 == 0x20 && addr.getByte 14 == 0x11 && addr.getByte 13 == 0x04 &&
      addr.getByte 12 == 0x70 then 0 :: addr.groupBytes 0 36
  else 0 :: addr.groupBytes 0 32

end CNetAddr

/-- `CService`: an address with a port. -/
structure CService extends CNetAddr where
  port : UInt16
deriving DecidableEq, Repr

/-- `GetKey`. -/
def CService.getKey (addr : CService) : List UInt8 :=
  addr.ip ++ [(addr.port / 0x100).toUInt8, (addr.port &&& 0xff).toUInt8]

/-- `CAddress`: what is known about a peer. -/
structure CAddress extends CService where
  /-- `NODE_NETWORK` by default. -/
  nServices : UInt64 := 1
  nTime : UInt32 := 100000000
  /-- In memory only. -/
  nLastTry : Int64 := 0
deriving DecidableEq, Repr

/-- `CAddress()`. -/
def CAddress.none : CAddress where
  toCNetAddr := CNetAddr.none
  port := 0

end Peershares
