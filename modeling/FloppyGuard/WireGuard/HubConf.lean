import FloppyGuard.WireGuard.PeerUpdates
import FloppyGuard.WireGuard.Sections

/-! `_rewriteHubConf`: the conf of a hub interface, its hooks and the record of the NAT rules it
owns. -/
namespace FloppyGuard.WireGuard

open Text

/-- A network card of the hub and one of its networks, or another network routed out by it. -/
structure Nic where
  name : String
  cidr : String
deriving DecidableEq

/-! Tests on texts. -/

/-- The decimal text of a number up to `k`. -/
def decimalUpTo (k : ℕ) (p : List Char) : Bool :=
  match number 3 p with
  | some n => n ≤ k && p = Nat.toDigits 10 n
  | none => false

def isHexOrColon (c : Char) : Bool :=
  c.isDigit || ('a' ≤ c && c ≤ 'f') || ('A' ≤ c && c ≤ 'F') || c = ':'

def isValidNetwork (value : String) : Bool :=
  match (trim value.toList).splitOn '/' with
  | [addr] => (ipToInt addr).isSome || (':' ∈ addr && addr.all isHexOrColon)
  | [addr, p] =>
    ((ipToInt addr).isSome && decimalUpTo 32 p) ||
      (':' ∈ addr && addr.all isHexOrColon && decimalUpTo 128 p)
  | _ => false

def semicolonParts (value : List Char) : List (List Char) := (value.splitOn ';').map trim

/-! Ownership of NAT rules. -/

def masqKey (nic cidr : String) : String := nic ++ "=" ++ cidr

/-- `GENERATED_MASQ_RE`: the card and the network of a command in the form the generator writes. -/
def generatedMasq (cmd : List Char) : Option (String × String) :=
  match (cmd.splitOn ' ').map String.ofList with
  | "iptables" :: "-t" :: "nat" :: verb :: "POSTROUTING" :: "-o" :: nic :: "-s" :: cidr :: "-j" ::
      "MASQUERADE" :: rest =>
    if (verb = "-A" ∨ verb = "-D") ∧ nic ≠ "" ∧ cidr ≠ "" ∧
      (nic.toList ++ cidr.toList).all (!isSpace ·) ∧
        (rest = [] ∨ rest = ["2>/dev/null", "||", "true"]) then
      some (nic, cidr)
    else none
  | _ => none

/-- `/^(\S+)=(\S+)$/`: the parts before and after the last `=` that something follows. -/
def keyParts (key : List Char) : Option (List Char × List Char) :=
  if key.any isSpace then none
  else match key.reverse with
    | [] => none
    | last :: front =>
      match front.dropWhile (· ≠ '=') with
      | '=' :: c :: before =>
        some ((c :: before).reverse, (last :: front.takeWhile (· ≠ '=')).reverse)
      | _ => none

/-- `MASQ_MARKER_RE`: what follows the name of the marker. -/
def masqMarker (t : List Char) : Option (List Char) :=
  match t with
  | '#' :: rest =>
    let rest := rest.dropWhile isSpace
    let name := "floppyguard-masq:".toList
    if (rest.take name.length).map Char.toLower = name ∧
      (rest.drop name.length).all (!isLineEnd ·) then
      some (rest.drop name.length)
    else none
  | _ => none

def parseMasqMarker (lines : List String) : List String :=
  (lines.flatMap fun l =>
    match masqMarker (trim l.toList) with
    | none => []
    | some list =>
      (((list.splitOn ',').map trim).filter fun k => (keyParts k).isSome).map
        String.ofList).eraseDups

/-- `/^Post(Up|Down)\s*=/` -/
def isHookLine (t : List Char) : Bool :=
  (startsWith "PostUp" t && ((t.drop 6).dropWhile isSpace).head? = some '=') ||
    (startsWith "PostDown" t && ((t.drop 8).dropWhile isSpace).head? = some '=')

/-- The keys of the commands in generated form that a hook line carries. -/
def hookKeys (l : String) : List String :=
  if isHookLine (trim l.toList) then
    ((semicolonParts (afterEq (trim l.toList))).filterMap generatedMasq).map fun p =>
      masqKey p.1 p.2
  else []

/-- `_previousOwnedMasq`: what the marker records, and what the hooks carry in generated form. -/
def previousOwnedMasq (lines : List String) : List String :=
  (parseMasqMarker lines ++ lines.flatMap hookKeys).eraseDups

def masqMarkerLine (masqueradeIfaces : List Nic) : String :=
  let keys := (masqueradeIfaces.map fun n => masqKey n.name n.cidr).eraseDups.insertionSort fun x
    y => le x.toList y.toList
  "# floppyguard-masq: " ++ if keys = [] then "-" else ", ".intercalate keys

def isGeneratedMasq (cmd : List Char) (ifaceName : String) (ownedKeys : List String) : Bool :=
  match generatedMasq cmd with
  | some (nic, cidr) => nic ≠ ifaceName && masqKey nic cidr ∈ ownedKeys
  | none => false

/-! The hooks. -/

/-- `replace(/\s+2>\/dev\/null \|\| true$/, "").trim()` -/
def hookCmdNorm (c : List Char) : List Char :=
  let tail := "2>/dev/null || true".toList
  let front := c.take (c.length - tail.length)
  if tail.isSuffixOf c ∧ (front.reverse.head?.any isSpace) = true then trim front else trim c

/-- `_dedupeHookCmds`: the first of several equal commands stays. -/
def dedupeHookCmds (cmds : List (List Char)) : List (List Char) :=
  (cmds.foldl (fun s c => if hookCmdNorm c ∈ s.1 then s else (s.1 ++ [hookCmdNorm c], s.2 ++ [c]))
    (([], []) : List (List Char) × List (List Char))).2

def routeCmd (isUp : Bool) (ifaceName net : String) : String :=
  "ip route " ++ (if isUp then "add " else "del ") ++ net ++ " dev " ++ ifaceName ++
    " 2>/dev/null || true"

def masqCmd (isUp : Bool) (nic : Nic) : String :=
  "iptables -t nat " ++ (if isUp then "-A" else "-D") ++ " POSTROUTING -o " ++ nic.name ++ " -s " ++
    nic.cidr ++
    " -j MASQUERADE" ++ if isUp then "" else " 2>/dev/null || true"

def hookCmds (isUp : Bool) (ifaceName : String) (allRouteNets : List String)
    (masqueradeIfaces : List Nic) : List String :=
  ((allRouteNets.insertionSort fun x y => le x.toList y.toList).map (routeCmd isUp ifaceName)) ++
    masqueradeIfaces.map (masqCmd isUp)

/-- `^ip route (?:add|del) \S+ dev <iface>` -/
def isRouteCmd (ifaceName : String) (cmd : List Char) : Bool :=
  match cmd.splitOn ' ' with
  | ip :: route :: verb :: net :: dev :: rest =>
    ip = "ip".toList && route = "route".toList && (verb = "add".toList || verb = "del".toList) &&
      net ≠ [] && net.all (!isSpace ·) && dev = "dev".toList &&
        startsWith ifaceName ([' '].intercalate rest)
  | _ => false

/-- The commands of a hook value that are left to the operator. -/
def operatorCmds (ifaceName : String) (ownedMasq : List String) (value : List Char) :
    List (List Char) :=
  (semicolonParts value).filter fun p => p ≠ [] && !isRouteCmd ifaceName p &&
    !isGeneratedMasq p ifaceName ownedMasq

/-! The rewrite. -/

structure HubInput where
  ifaceName : String
  peerUpdates : Table String (List String)
  allRouteNets : List String
  masqueradeIfaces : List Nic

/-- What is written now and what the last rewrite recorded. -/
def HubInput.ownedMasq (inp : HubInput) (lines : List String) : List String :=
  (inp.masqueradeIfaces.map fun n => masqKey n.name n.cidr) ++ parseMasqMarker lines

structure HubScan where
  inPeer : Bool
  currentPubKey : Option String
  markerWritten : Bool
  out : List String

/-- The hook line a value is rewritten to. -/
def hookLine (inp : HubInput) (ownedMasq : List String) (isUp : Bool) (rawLine : String) : String :=
  let value := trim (afterEq rawLine.toList)
  let generated :=
    (hookCmds isUp inp.ifaceName inp.allRouteNets inp.masqueradeIfaces).map String.toList
  (if isUp then "PostUp" else "PostDown") ++ " = " ++
    "; ".intercalate ((dedupeHookCmds (operatorCmds inp.ifaceName ownedMasq value ++ generated)).map
      String.ofList)

def HubScan.line (inp : HubInput) (ownedMasq : List String) (s : HubScan) (rawLine : String) :
    HubScan :=
  let t := trim rawLine.toList
  if !s.inPeer && (masqMarker t).isSome then s
  else if t = "[Peer]".toList then
    { s with inPeer := true, currentPubKey := none, out := s.out ++ [rawLine] }
  else if startsWith "[" t then
    { s with inPeer := false, currentPubKey := none, out := s.out ++ [rawLine] }
  else if s.inPeer && startsWith "PublicKey" t then
    { s with currentPubKey := some (String.ofList (trim (afterEq t))), out := s.out ++ [rawLine] }
  else if s.inPeer && startsWith "AllowedIPs" t then
    match s.currentPubKey.filter (· ≠ "") |>.bind inp.peerUpdates.get? with
    | some newIPs => { s with out := s.out ++ ["AllowedIPs = " ++ ", ".intercalate newIPs] }
    | none => { s with out := s.out ++ [rawLine] }
  else if !s.inPeer && (startsWith "PostUp" t || startsWith "PostDown" t) then
    let isUp := startsWith "PostUp" t
    let marker := if isUp && !s.markerWritten then [masqMarkerLine inp.masqueradeIfaces] else []
    { s with
      markerWritten := s.markerWritten || isUp
      out := s.out ++ marker ++ [hookLine inp ownedMasq isUp rawLine] }
  else { s with out := s.out ++ [rawLine] }

/-- Where the first line with the prefix stands. -/
def lineIndex (prefixOf : String) (out : List String) : ℕ :=
  out.findIdx fun l => startsWith prefixOf (trim l.toList)

/-- The hooks the conf lacks: above its `PostDown`, below its `PostUp`, or before the first peer. -/
def injectHooks (inp : HubInput) (lines out : List String) : List String :=
  let hasPostUp := lines.any fun l => startsWith "PostUp" (trim l.toList)
  let hasPostDown := lines.any fun l => startsWith "PostDown" (trim l.toList)
  if (!hasPostUp || !hasPostDown) && (inp.allRouteNets ≠ [] || inp.masqueradeIfaces ≠ []) then
    let hook (isUp : Bool) :=
      "; ".intercalate (hookCmds isUp inp.ifaceName inp.allRouteNets inp.masqueradeIfaces)
    let newLines :=
      (if hasPostUp then [] else [masqMarkerLine inp.masqueradeIfaces, "PostUp = " ++ hook true]) ++
        if hasPostDown then [] else ["PostDown = " ++ hook false]
    let peerIdx := out.findIdx fun l => trim l.toList = "[Peer]".toList
    let insertAt :=
      if hasPostDown then lineIndex "PostDown" out
      else if hasPostUp then lineIndex "PostUp" out + 1
      else if 0 < peerIdx then peerIdx else out.length
    out.take insertAt ++ newLines ++ out.drop insertAt
  else out

/-- `_rewriteHubConf` -/
def rewriteHubConf (inp : HubInput) (lines : List String) : List String :=
  injectHooks inp lines
    (lines.foldl (HubScan.line inp (inp.ownedMasq lines)) ⟨false, none, false, []⟩).out

/-! The NAT rules of one sync. -/

/-- `_tunnelSubnetFromConfLines`: the first network in the first `Address` line. -/
def tunnelSubnetFromConfLines (lines : List String) : String :=
  let network := (lines.find? fun l => (addressValue l.toList).isSome).bind fun l =>
    l.toList.tails.findSome? leadingCidr
  ((network.bind fun n => canonicalizeIpv4Network (String.ofList (n.1 ++ '/' :: n.2))).map
    Cidr.render).getD "10.10.0.0/24"

/-- One entry for each card and network: the card's own, the tunnel, and every network routed into
the tunnel. -/
def masqueradeIfacesOf (physicalIfaces : List Nic) (tunnelSubnet : String)
    (allRouteNets : List String) : List Nic :=
  (physicalIfaces.flatMap fun nic =>
    [nic, ⟨nic.name, tunnelSubnet⟩] ++
      (((allRouteNets.insertionSort fun x y => le x.toList y.toList).filter (':' ∉ ·.toList)).map
        (⟨nic.name, ·⟩))).eraseDups

end FloppyGuard.WireGuard
