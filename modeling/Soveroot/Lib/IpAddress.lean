import Soveroot.Lib.Hex

/-!
# Addresses and networks

The part of Python's `ipaddress` that reads an address and prints the network it lies in:
`ip_address`, `ipv4_mapped`, and `str(ip_network(f"{address}/{length}", strict=False))`. Scope
identifiers are left out.
-/

namespace Py

/-- `text.split(sep)` for a separator of one character. -/
def split (sep : Nat) : Text → List Text
  | [] => [[]]
  | c :: rest =>
    if c = sep then [] :: split sep rest
    else
      match split sep rest with
      | [] => [[c]]
      | part :: parts => (c :: part) :: parts

/-- `sep.join(parts)` for a separator of one character. -/
def join (sep : Nat) : List Text → Text
  | [] => []
  | [part] => part
  | part :: parts => part ++ sep :: join sep parts

/-- An address of either version. -/
inductive IpAddress where
  | v4 (ip : Nat)
  | v6 (ip : Nat)
  deriving DecidableEq

namespace IpAddress

def parseOctet (octet : Text) : Option Nat :=
  if octet ≠ [] ∧ (octet.all fun c => 48 ≤ c && c ≤ 57) = true ∧ octet.length ≤ 3 ∧
      (octet = [48] ∨ octet.head? ≠ some 48) then
    let value := octet.foldl (fun n c => 10 * n + (c - 48)) 0
    if value ≤ 255 then some value else none
  else none

/-- `IPv4Address(text)`. -/
def parseV4 (text : Text) : Option Nat := do
  match ← (split 46 text).mapM parseOctet with
  | [a, b, c, d] => some (((a * 256 + b) * 256 + c) * 256 + d)
  | _ => none

def parseHextet (hextet : Text) : Option Nat :=
  if hextet ≠ [] ∧ hextet.length ≤ 4 then
    (hextet.mapM hexValue).map fun digits => digits.foldl (fun n d => 16 * n + d) 0
  else none

/-- The digits `%x` prints. -/
def hextetText (n : Nat) : Text := if n = 0 then [48] else (Nat.digits 16 n).reverse.map hexDigit

/-- The hextets of an address, the last two of them perhaps in dotted form. -/
def hextetTexts (text : Text) : Option (List Text) :=
  let parts := split 58 text
  if parts.length < 3 then none
  else if 46 ∈ parts.getLastD [] then do
    let ip ← parseV4 (parts.getLastD [])
    some (parts.dropLast ++ [hextetText (ip / 65536), hextetText (ip % 65536)])
  else some parts

/-- The places of `::` among the parts. -/
def skips (parts : List Text) : List Nat :=
  (List.range parts.length).filter fun i =>
    0 < i && i < parts.length - 1 && (parts.getD i []).isEmpty

/-- The hextets on both sides of a `::` at place `i`. A colon at an end belongs to it. -/
def aroundSkip (parts : List Text) (i : Nat) : Option (List Text × List Text) :=
  let front := parts.take i
  let back := parts.drop (i + 1)
  let front := if front.head? = some [] then front.tail else front
  let back := if back.getLast? = some [] then back.dropLast else back
  if (parts.head? = some [] ∧ front ≠ []) ∨ (parts.getLast? = some [] ∧ back ≠ []) then none
  else if front.length + back.length < 8 then some (front, back)
  else none

/-- `IPv6Address(text)`. -/
def parseV6 (text : Text) : Option Nat := do
  let parts ← hextetTexts text
  let value (hextets : List Nat) : Nat := hextets.foldl (fun n h => 65536 * n + h) 0
  if 9 < parts.length then none
  else
    match skips parts with
    | [] => if parts.length = 8 then (parts.mapM parseHextet).map value else none
    | [i] => do
        let (front, back) ← aroundSkip parts i
        let front ← front.mapM parseHextet
        let back ← back.mapM parseHextet
        some (value (front ++ List.replicate (8 - (front.length + back.length)) 0 ++ back))
    | _ => none

/-- `ip_address(text)`. -/
def parse (text : Text) : Option IpAddress :=
  if 47 ∈ text then none
  else
    match parseV4 text with
    | some ip => some (.v4 ip)
    | none => (parseV6 text).map .v6

/-- `address.ipv4_mapped` in place of an address that has one. -/
def unmapped : IpAddress → IpAddress
  | .v4 ip => .v4 ip
  | .v6 ip => if ip / 2 ^ 32 = 0xFFFF then .v4 (ip % 2 ^ 32) else .v6 ip

/-- The hextets with their longest run of zeros, if it is longer than one, taken out: how many
hextets stand before it and how long it is. -/
def longestZeros : Nat → List Nat → Nat × Nat
  | _, [] => (0, 0)
  | i, h :: rest =>
    let run := ((h :: rest).takeWhile (· = 0)).length
    let later := longestZeros (i + 1) rest
    if later.2 ≤ run then (i, run) else later

/-- `str(IPv6Address(ip))`. -/
def textV6 (ip : Nat) : Text :=
  let hextets := (List.range 8).map fun i => ip / 2 ^ (16 * (7 - i)) % 65536
  let (start, length) := longestZeros 0 hextets
  if 1 < length then
    join 58 ((hextets.take start).map hextetText) ++ [58, 58] ++
      join 58 ((hextets.drop (start + length)).map hextetText)
  else join 58 (hextets.map hextetText)

/-- `str(IPv4Address(ip))`. -/
def textV4 (ip : Nat) : Text :=
  join 46 ((List.range 4).map fun i => decimalNat (ip / 2 ^ (8 * (3 - i)) % 256))

/-- `str(ip_network(f"{address}/{length}", strict=False))`, with one length for each version. -/
def networkText (length4 length6 : Nat) : IpAddress → Text
  | .v4 ip => textV4 (ip / 2 ^ (32 - length4) * 2 ^ (32 - length4)) ++ 47 :: decimalNat length4
  | .v6 ip => textV6 (ip / 2 ^ (128 - length6) * 2 ^ (128 - length6)) ++ 47 :: decimalNat length6

example : (parse (ascii "192.168.7.9")).map (networkText 24 48) =
    some (ascii "192.168.7.0/24") := by
  decide +kernel

example : (parse (ascii "2001:db8:0:5::1")).map (networkText 24 48) =
    some (ascii "2001:db8::/48") := by
  decide +kernel

example : (parse (ascii "::ffff:10.0.0.1")).map unmapped = some (.v4 0x0A000001) := by
  decide +kernel

end IpAddress

end Py
