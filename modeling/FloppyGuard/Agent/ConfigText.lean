import FloppyGuard.Agent.Reach
import FloppyGuard.WireGuard.PeerRewrite

/-! `agent.js`: the config text the hub keeps for an agent, and the passes one sync makes over it. A
text is the list of its lines. -/
namespace FloppyGuard.AgentSync

open Text WireGuard

/-- The text of the lines. -/
def joined (ls : List String) : List Char := ['\n'].intercalate (ls.map String.toList)

/-! Checks. -/

/-- `CIDR_RE` -/
def isCidrText (value : String) : Bool :=
  match value.toList.splitOn '/' with
  | [addr, p] => isDotted addr && (number 2 p).isSome
  | _ => false

def assertCIDR (value : String) : Except String Unit :=
  if isCidrText value then .ok () else .error ("Invalid CIDR: " ++ value)

/-- `name || "wg0"`, `/^wg\d{1,3}$/` -/
def sanitizeWgInterface (name : Option String) : Except String String :=
  let n := (name.filter (· ≠ "")).getD "wg0"
  if startsWith "wg" n.toList && (number 3 (n.toList.drop 2)).isSome then .ok n
  else .error "wg_interface must match wg<number>, e.g. \"wg0\""

def isHubHostChar (c : Char) : Bool := c.isAlphanum || c ∈ ['.', '-', '_', ':', '[', ']']

/-- `_sanitizeHubHost`: a bare IPv6 address gets brackets. -/
def sanitizeHubHost (raw : String) : Option String :=
  let v := trim raw.toList
  if v = [] || !v.all isHubHostChar then none
  else some (String.ofList (if ':' ∈ v && !startsWith "[" v then '[' :: v ++ [']'] else v))

/-! The tunnel subnet. -/

def isAddressChar (c : Char) : Bool := c.isDigit || c = '.'

/-- `\s*Address\s*=\s*([\d.]+)\/(\d+)` at the start of a text. -/
def addressAt (s : List Char) : Option (List Char × List Char) :=
  let s := s.dropWhile isSpace
  if (s.take 7).map Char.toLower = "address".toList then
    match (s.drop 7).dropWhile isSpace with
    | '=' :: rest =>
      let value := rest.dropWhile isSpace
      match value.dropWhile isAddressChar with
      | '/' :: mask =>
        if value.takeWhile isAddressChar ≠ [] ∧ mask.takeWhile Char.isDigit ≠ [] then
          some (value.takeWhile isAddressChar, mask.takeWhile Char.isDigit)
        else none
      | _ => none
    | _ => none
  else none

/-- A `/32` says nothing about the subnet and stands for its `/24`. -/
def subnetOf (addr digits : List Char) : Option Cidr :=
  let mask := Nat.ofDigitChars 10 digits 0
  if mask < 1 ∨ 32 < mask then none
  else
    canonicalizeIpv4Network
      (String.ofList (addr ++ '/' :: Nat.toDigits 10 (if mask = 32 then 24 else mask)))

def defaultSubnet : Cidr := ⟨0x0a0a0000#32, 24, by decide, by decide⟩

def deriveTunnelSubnet (ls : List String) : Cidr :=
  (((lineStarts (joined ls)).findSome? addressAt).bind fun m => subnetOf m.1 m.2).getD defaultSubnet

end FloppyGuard.AgentSync
