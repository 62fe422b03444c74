import FloppyGuard.Agent.ConfigText
import FloppyGuard.Lib.Lines
import FloppyGuard.WireGuard.HubRewrite

/-! `agent.js`: the config an agent uploads as the hub keeps it, with the hooks the hub generates
(`normalizeAgentConfig`, `stripToTunnelOnly`), and the calls that store one. -/
namespace FloppyGuard.AgentSync

open Text WireGuard

def textLines (text : String) : List String := (splitLines text.toList).map String.ofList

/-- `deriveTunnelSubnet` on a text that is not cut into lines. -/
def tunnelSubnet (text : String) : Cidr := deriveTunnelSubnet [text]

/-! The hooks. -/

/-- The words of a command; the text has a blank between two. -/
abbrev Command := List String

def Command.text (cmd : Command) : String := " ".intercalate cmd

structure HookOptions where
  iface : Option String
  localNets : List String

def acceptCmd (isUp : Bool) (direction iface : String) : Command :=
  ["iptables", if isUp then "-A" else "-D", "FORWARD", direction, iface, "-j", "ACCEPT"]

def returnCmd (isUp : Bool) (subnet net : String) : Command :=
  ["iptables", "-t", "nat", if isUp then "-A" else "-D", "POSTROUTING", "-s", subnet, "-d", net,
    "-j", "RETURN"]

def masqueradeCmd (isUp : Bool) (iface net : String) : Command :=
  ["iptables", "-t", "nat", if isUp then "-A" else "-D", "POSTROUTING", "!", "-o", iface, "-s", net,
    "-j", "MASQUERADE"]

def tunnelRouteCmd (isUp : Bool) (iface net : String) : Command :=
  ["ip", "route", if isUp then "add" else "del", net, "dev", iface, "2>/dev/null", "||", "true"]

def hubCommands (isUp : Bool) (iface subnet : String)
    (localNets remoteSiteNets peerNets : List String) : List Command :=
  (if isUp then [["sysctl", "-w", "net.ipv4.ip_forward=1"]] else []) ++
    [acceptCmd isUp "-i" iface, acceptCmd isUp "-o" iface] ++
      localNets.map (returnCmd isUp subnet) ++
      masqueradeCmd isUp iface subnet :: remoteSiteNets.map (masqueradeCmd isUp iface) ++
        peerNets.map (tunnelRouteCmd isUp iface)

def buildHubHook (isUp : Bool) (subnet : String) (remoteSiteNets peerNets : List String)
    (opts : HookOptions) :
    Except String String := do
  let iface ← sanitizeWgInterface opts.iface
  assertCIDR subnet
  opts.localNets.forM assertCIDR
  remoteSiteNets.forM assertCIDR
  peerNets.forM assertCIDR
  return "; ".intercalate
    ((hubCommands isUp iface subnet opts.localNets remoteSiteNets peerNets).map Command.text)

def buildHubPostUp := buildHubHook true

def buildHubPostDown := buildHubHook false

/-! The networks of the hub peer, the first `[Peer]` of a text. -/

/-- `found` are the `AllowedIPs` lines of the first peer. -/
structure AllowedScan where
  peerIdx : ℕ
  inPeer : Bool
  found : List (List Char)

namespace AllowedScan

def init : AllowedScan := ⟨0, false, []⟩

def line (s : AllowedScan) (raw : String) : AllowedScan :=
  let t := trim raw.toList
  if isPeerHeader raw then { s with peerIdx := s.peerIdx + 1, inPeer := true }
  else if isHeader raw then { s with inPeer := false }
  else if s.inPeer ∧ s.peerIdx = 1 ∧ startsWith "AllowedIPs" t then
    { s with found := s.found ++ [t] }
  else s

end AllowedScan

def hubPeerAllowed (lines : List String) : List (List Char) :=
  (lines.foldl AllowedScan.line .init).found

/-- `_parseHubPeerAllowedIPs` -/
def parseHubPeerAllowedIPs (text : String) : List String :=
  (hubPeerAllowed (textLines text)).flatMap fun t => commaList (trim (afterEq t))

structure AllowedRewrite where
  peerIdx : ℕ
  inPeer : Bool
  replaced : Bool
  out : List String

namespace AllowedRewrite

def init : AllowedRewrite := ⟨0, false, false, []⟩

def line (newAllowedIPs : List String) (s : AllowedRewrite) (raw : String) : AllowedRewrite :=
  if isPeerHeader raw then
    { s with peerIdx := s.peerIdx + 1, inPeer := true, out := s.out ++ [raw] }
  else if isHeader raw then { s with inPeer := false, out := s.out ++ [raw] }
  else if s.inPeer ∧ s.peerIdx = 1 ∧ startsWith "AllowedIPs" (trim raw.toList) then
    -- the lines after the first are merged into it
    if s.replaced then s
    else
      { s with
        replaced := true, out := s.out ++ ["AllowedIPs = " ++ ", ".intercalate newAllowedIPs] }
  else { s with out := s.out ++ [raw] }

end AllowedRewrite

/-- `_rewriteHubPeerAllowedIPs` -/
def rewriteHubPeerAllowedIPs (text : String) (newAllowedIPs : List String) : String :=
  String.ofList (joined ((textLines text).foldl (AllowedRewrite.line newAllowedIPs) .init).out)

/-! The stored config. -/

structure NormalScan where
  inInterface : Bool
  hasTable : Bool
  out : List String

namespace NormalScan

def init : NormalScan := ⟨false, false, []⟩

/-- Masks the private key and leaves the hooks out. -/
def line (s : NormalScan) (raw : String) : NormalScan :=
  let t := trim raw.toList
  let inInterface := if t = "[Interface]".toList then true else if isHeader raw then false
    else s.inInterface
  { inInterface
    hasTable := s.hasTable || (inInterface && startsWith "Table" t)
    out :=
      if inInterface ∧ startsWith "PrivateKey" t ∧ ¬ "(hidden)".toList <:+: t then
        s.out ++ ["PrivateKey = (hidden)"]
      else if isHook true raw || isHook false raw then s.out
      else s.out ++ [raw] }

end NormalScan

/-- Before the first peer, unless it is the first line; else at the end. -/
def insertAt (out : List String) : ℕ :=
  match out.findIdx? isPeerHeader with
  | some (i + 1) => i + 1
  | _ => out.length

def peerNets (text : String) : List String :=
  (parseHubPeerAllowedIPs text).filter fun c => !isHostRoute c

def normalizeAgentConfig (text : String) (remoteSiteNets : List String) (opts : HookOptions) :
    Except String String :=
  if text = "" then .ok text
  else do
    let s := (textLines text).foldl NormalScan.line .init
    let subnet := (tunnelSubnet text).render
    let postUp ← buildHubPostUp subnet remoteSiteNets (peerNets text) opts
    let postDown ← buildHubPostDown subnet remoteSiteNets (peerNets text) opts
    let toInsert :=
      (if s.hasTable then [] else ["Table = off"]) ++
        ["PostUp = " ++ postUp, "PostDown = " ++ postDown]
    return String.ofList
      (joined (s.out.take (insertAt s.out) ++ toInsert ++ s.out.drop (insertAt s.out)))

/-- The tunnel subnet and the host routes. -/
def tunnelOnlyIPs (text : String) : List String :=
  (((tunnelSubnet text).render :: (parseHubPeerAllowedIPs text).filter
    isHostRoute).eraseDups).insertionSort fun x y =>
    le x.toList y.toList

def stripToTunnelOnly (text : String) (iface : Option String) : Except String String :=
  normalizeAgentConfig (rewriteHubPeerAllowedIPs text (tunnelOnlyIPs text)) [] ⟨iface, []⟩

/-! The calls. -/

/-- The columns of an agent that decide over its config. -/
structure StoredAgent where
  configText : Option String
  wgInterface : Option String
  wgLinkName : Option String
  agentToken : Option String

namespace StoredAgent

variable (agent : StoredAgent)

/-- The config, when there is one. -/
def config : Option String := agent.configText.filter (· ≠ "")

def bound : Bool := agent.wgLinkName.any (· ≠ "")

def iface : String := (agent.wgInterface.filter (· ≠ "")).getD "wg0"

end StoredAgent

/-- `config_text` of an upload. -/
inductive Uploaded
  | missing
  | text (configText : String)
  /-- no string -/
  | other

def uploadConfig (agent : StoredAgent) (data : Uploaded) : Except String StoredAgent :=
  if agent.config.isSome then .ok agent
  else
    match data with
    | .other => .error "config_text must be a string"
    | .missing => .ok agent
    | .text configText =>
      if trim configText.toList = [] then .ok agent
      else do
        let uploadIface ← sanitizeWgInterface agent.wgInterface
        -- an agent without a link is never synced
        let finalConfig ←
          if agent.bound then normalizeAgentConfig configText [] ⟨some uploadIface, []⟩
          else stripToTunnelOnly configText (some uploadIface)
        return { agent with configText := some finalConfig }

def sanitizeOptionalString (value : Option String) (field : String) (max : ℕ) :
    Except String (Option String) :=
  match value with
  | none | some "" => .ok none
  | some v =>
    if max < units v.toList then
      .error (field ++ " must be a string or null (max " ++ toString max ++ " chars)")
    else .ok (some v)

/-- The fields of an update that the config depends on; the outer `none` is a field that is not
sent. -/
structure AgentPatch where
  wgInterface : Option (Option String)
  wgLinkName : Option (Option String)

/-- What the checks leave of a patch. -/
structure CheckedPatch where
  wgInterface : Option String
  wgLinkName : Option (Option String)

/-- `linkNames` are the names of the links in the metadata. -/
def assertUnambiguousLinkName (linkNames : List String) (name : Option String) :
    Except String Unit :=
  match name with
  | none | some "" => .ok ()
  | some name =>
    if 1 < linkNames.count name then
      .error ("wg_link_name \"" ++ name ++ "\" matches " ++ toString (linkNames.count name) ++
        " links — resolve duplicate link names before assigning")
    else .ok ()

def checkPatch (linkNames : List String) (existing : StoredAgent) (data : AgentPatch) :
    Except String CheckedPatch := do
  let wgInterface ← data.wgInterface.mapM sanitizeWgInterface
  -- an installed agent keeps the name it was installed with
  if wgInterface.any (· ≠ existing.iface) ∧ existing.agentToken.any (· ≠ "") then
    throw
      ("wg_interface can only be changed before the agent is installed. Reset the token, change " ++
        "the interface, then " ++
        "reinstall the agent (and \x60wg-quick down\x60 the old interface on the gateway).")
  let wgLinkName ← data.wgLinkName.mapM fun v => sanitizeOptionalString v "wg_link_name" 255
  if wgLinkName.any (· ≠ existing.wgLinkName) then
    assertUnambiguousLinkName linkNames wgLinkName.join
  return { wgInterface, wgLinkName }

namespace CheckedPatch

variable (patch : CheckedPatch) (existing : StoredAgent)

def unbinds : Bool := patch.wgLinkName = some none && existing.bound

def renames : Bool := patch.wgInterface.any (· ≠ existing.iface)

def boundAfter : Bool := (patch.wgLinkName.getD existing.wgLinkName).any (· ≠ "")

/-- The config after the patch. -/
def configText : Except String (Option String) :=
  match existing.config with
  | none => .ok existing.configText
  | some text =>
    if patch.unbinds existing then do
      let iface ← sanitizeWgInterface (patch.wgInterface <|> existing.wgInterface)
      (stripToTunnelOnly text (some iface)).map some
    else if patch.renames existing then
      (if patch.boundAfter existing then normalizeAgentConfig text [] ⟨patch.wgInterface, []⟩
        else stripToTunnelOnly text patch.wgInterface).map some
    else .ok existing.configText

end CheckedPatch

/-- `update`, before its sync. -/
def update (linkNames : List String) (existing : StoredAgent) (data : AgentPatch) :
    Except String StoredAgent := do
  let patch ← checkPatch linkNames existing data
  let configText ← patch.configText existing
  return { existing with
    configText
    wgInterface := patch.wgInterface <|> existing.wgInterface
    wgLinkName := patch.wgLinkName.getD existing.wgLinkName }

end FloppyGuard.AgentSync
