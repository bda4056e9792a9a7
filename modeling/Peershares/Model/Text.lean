import Peershares.Model.Basic

/-!
# Texts that end with a zero

`WildcardMatch` and the Base64 of `util.cpp`, and `ClientAllowed` of `bitcoinrpc.cpp`. A pointer into a text is what
stands from there on, with the terminator; behind the terminator nothing can be read, and the result is `none`.
-/

namespace Peershares

/-- `c_str()` of a string without the zero byte. -/
def cStr (str : List UInt8) : List UInt8 := str ++ [0]

/-! ### Masks of hosts -/

/-- `WildcardMatch(psz, mask)`. -/
def wildcardMatch : List UInt8 → List UInt8 → Option Bool
  | _, [] => none
  | psz, c :: mask =>
    if c = 0 then psz.head?.map (fun p => p = 0)
    else if c = 42 then -- '*'
      match wildcardMatch psz mask with
      | none => none
      | some true => some true
      | some false =>
        match psz with
        | [] => none
        | p :: psz => if p = 0 then some false else wildcardMatch psz (c :: mask)
    else if c = 63 then -- '?'
      match psz with
      | [] => none
      | p :: psz => if p = 0 then some false else wildcardMatch psz mask
    else
      match psz with
      | [] => none
      | p :: psz => if p ≠ c then some false else wildcardMatch psz mask
termination_by psz mask => psz.length + mask.length

/-- `asio::ip::address_v4::loopback().to_string()`. -/
def loopback : List UInt8 := [49, 50, 55, 46, 48, 46, 48, 46, 49]

/-- The loop over the masks of `-rpcallowip`. -/
def matchesAny (strAddress : List UInt8) : List (List UInt8) → Option Bool
  | [] => some false
  | strAllow :: vAllow =>
    match wildcardMatch (cStr strAddress) (cStr strAllow) with
    | none => none
    | some true => some true
    | some false => matchesAny strAddress vAllow

/-- `ClientAllowed`. -/
def clientAllowed (vAllow : List (List UInt8)) (strAddress : List UInt8) : Option Bool :=
  if strAddress = loopback then some true else matchesAny strAddress vAllow

/-! ### Base64 -/

namespace Base64

/-- `pbase64`. -/
def pbase64 : List UInt8 :=
  [65, 66, 67, 68, 69, 70, 71, 72, 73, 74, 75, 76, 77, 78, 79, 80, 81, 82, 83, 84, 85, 86, 87, 88, 89, 90,
    97, 98, 99, 100, 101, 102, 103, 104, 105, 106, 107, 108, 109, 110, 111, 112, 113, 114, 115, 116, 117, 118,
    119, 120, 121, 122,
    48, 49, 50, 51, 52, 53, 54, 55, 56, 57, 43, 47]

/-- The variables of the loop of `EncodeBase64`: the bits that are left, which are none, two or four by the mode. -/
structure EncodeState where
  mode : Nat := 0
  left : Nat := 0
  strRet : List UInt8 := []
deriving DecidableEq, Repr

/-- A character of the alphabet. -/
def base64Char (n : Nat) : UInt8 := pbase64.getD n 0

/-- A round of the loop of `EncodeBase64`. -/
def encodeStep (s : EncodeState) (pch : UInt8) : EncodeState :=
  let enc := pch.toNat
  match s.mode with
  | 0 => -- we have no bits
    { strRet := s.strRet ++ [base64Char (enc >>> 2)], left := (enc &&& 3) <<< 4, mode := 1 }
  | 1 => -- we have two bits
    { strRet := s.strRet ++ [base64Char (s.left ||| (enc >>> 4))], left := (enc &&& 15) <<< 2, mode := 2 }
  | 2 => -- we have four bits
    { s with strRet := s.strRet ++ [base64Char (s.left ||| (enc >>> 6)), base64Char (enc &&& 63)], mode := 0 }
  | _ => s

/-- What `EncodeBase64` appends after the loop; the byte `=` is 61. -/
def encodeEnd (s : EncodeState) : List UInt8 :=
  if s.mode ≠ 0 then s.strRet ++ [base64Char s.left] ++ [61] ++ (if s.mode = 1 then [61] else [])
  else s.strRet

/-- `decode64_table`. -/
def decode64_table : List Int :=
  [-1, -1, -1, -1, -1, -1, -1, -1, -1, -1, -1, -1, -1, -1, -1, -1,
    -1, -1, -1, -1, -1, -1, -1, -1, -1, -1, -1, -1, -1, -1, -1, -1,
    -1, -1, -1, -1, -1, -1, -1, -1, -1, -1, -1, 62, -1, -1, -1, 63,
    52, 53, 54, 55, 56, 57, 58, 59, 60, 61, -1, -1, -1, -1, -1, -1,
    -1, 0, 1, 2, 3, 4, 5, 6, 7, 8, 9, 10, 11, 12, 13, 14,
    15, 16, 17, 18, 19, 20, 21, 22, 23, 24, 25, -1, -1, -1, -1, -1,
    -1, 26, 27, 28, 29, 30, 31, 32, 33, 34, 35, 36, 37, 38, 39, 40,
    41, 42, 43, 44, 45, 46, 47, 48, 49, 50, 51, -1, -1, -1, -1, -1,
    -1, -1, -1, -1, -1, -1, -1, -1, -1, -1, -1, -1, -1, -1, -1, -1,
    -1, -1, -1, -1, -1, -1, -1, -1, -1, -1, -1, -1, -1, -1, -1, -1,
    -1, -1, -1, -1, -1, -1, -1, -1, -1, -1, -1, -1, -1, -1, -1, -1,
    -1, -1, -1, -1, -1, -1, -1, -1, -1, -1, -1, -1, -1, -1, -1, -1,
    -1, -1, -1, -1, -1, -1, -1, -1, -1, -1, -1, -1, -1, -1, -1, -1,
    -1, -1, -1, -1, -1, -1, -1, -1, -1, -1, -1, -1, -1, -1, -1, -1,
    -1, -1, -1, -1, -1, -1, -1, -1, -1, -1, -1, -1, -1, -1, -1, -1,
    -1, -1, -1, -1, -1, -1, -1, -1, -1, -1, -1, -1, -1, -1, -1, -1]

/-- The entry of the table for a byte. -/
def decode64 (c : UInt8) : Int := decode64_table.getD c.toNat (-1)

/-- The variables of the loop of `DecodeBase64`. -/
structure DecodeState where
  mode : Nat := 0
  left : Nat := 0
  vchRet : List UInt8 := []
deriving DecidableEq, Repr

/-- A round of the loop of `DecodeBase64`, for a character of the alphabet. -/
def decodeStep (s : DecodeState) (dec : Nat) : DecodeState :=
  match s.mode with
  | 0 => -- we have no bits and get 6
    { s with left := dec, mode := 1 }
  | 1 => -- we have 6 bits and keep 4
    { vchRet := s.vchRet ++ [UInt8.ofNat ((s.left <<< 2) ||| (dec >>> 4))], left := dec &&& 15, mode := 2 }
  | 2 => -- we have 4 bits and get 6, we keep 2
    { vchRet := s.vchRet ++ [UInt8.ofNat ((s.left <<< 4) ||| (dec >>> 2))], left := dec &&& 3, mode := 3 }
  | 3 => -- we have 2 bits and get 6
    { s with vchRet := s.vchRet ++ [UInt8.ofNat ((s.left <<< 6) ||| dec)], mode := 0 }
  | _ => s

/-- The loop of `DecodeBase64`, with the pointer where it ends. -/
def decodeLoop : List UInt8 → DecodeState → Option (List UInt8 × DecodeState)
  | [], _ => none
  | c :: p, s => if decode64 c = -1 then some (c :: p, s) else decodeLoop p (decodeStep s (decode64 c).toNat)

/-- The test of `*pfInvalid` for two or three characters after the last four: `n` padding characters. -/
def padInvalid : Nat → List UInt8 → Option Bool
  | _, [] => none
  | 0, c :: _ => some (decode64 c ≠ -1)
  | n + 1, c :: p => if c ≠ 61 then some true else padInvalid n p

/-- `*pfInvalid`. -/
def decodeInvalid (p : List UInt8) (s : DecodeState) : Option Bool :=
  match s.mode with
  | 1 => some true
  | 2 => if s.left ≠ 0 then some true else padInvalid 2 p
  | 3 => if s.left ≠ 0 then some true else padInvalid 1 p
  | _ => some false

/-- The loop of `DecodeBase64` from the state `s` on, and the test behind it. -/
def decodeFrom (p : List UInt8) (s : DecodeState) : Option (List UInt8 × Bool) :=
  match decodeLoop p s with
  | none => none
  | some (p, s) => (decodeInvalid p s).map (fun fInvalid => (s.vchRet, fInvalid))

end Base64

/-- `EncodeBase64`. -/
def encodeBase64 (pch : List UInt8) : List UInt8 := Base64.encodeEnd (pch.foldl Base64.encodeStep {})

/-- `DecodeBase64`, with `*pfInvalid`. -/
def decodeBase64 (p : List UInt8) : Option (List UInt8 × Bool) := Base64.decodeFrom p {}

end Peershares
