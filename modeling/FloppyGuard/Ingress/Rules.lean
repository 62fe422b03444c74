import FloppyGuard.SiteIsolation.Rules

/-! `agent-ingress-rules.js`: Freigaben, their validation, their size and what they cover. -/
namespace FloppyGuard.Ingress

def maxRulesPerAgent : ℕ := 500

def maxList : ℕ := 64

def maxLinesPerRule : ℕ := 256

def maxLinesTotal : ℕ := 4000

def nameMax : ℕ := 100

def noteMax : ℕ := 255

/-- `INGRESS_MODES`. -/
inductive IngressMode
  | open_
  | restricted
deriving DecidableEq

/-- `INGRESS_PROTOS`. -/
def ingressProtos : List String := ["tcp", "udp"]

structure Port where
  proto : String
  port : String
deriving DecidableEq

/-- `rowToRule`, without the hit counters and dates. -/
structure Rule where
  id : ℕ
  name : String
  sources : List String
  destinations : List String
  ports : List Port
  enabled : Bool
  note : Option String
  armedOn : Option ℕ
deriving DecidableEq

/-- A field of a request body. -/
inductive Field (α : Type)
  | undefined
  | null
  | value (a : α)

def Field.isUndefined {α : Type} : Field α → Bool
  | undefined => true
  | null | value _ => false

/-- A value where an array is expected. -/
inductive JsonList (α : Type)
  | other
  | array (xs : List α)

/-- A value where a boolean is expected. -/
inductive Flag
  | bool (b : Bool)
  | number (n : ℤ)
  | text (s : String)

/-- One entry of `ports`; an absent member is null or undefined. -/
structure PortEntry where
  proto : Option String
  port : Option String

structure RulePayload where
  name : Field String
  sources : Field (JsonList String)
  destinations : Field (JsonList String)
  ports : Field (JsonList PortEntry)
  enabled : Field Flag
  note : Field String

/-- What `sanitizeIngressRule` returns; an absent field was not in the request. -/
structure RulePatch where
  name : Option String
  sources : Option (List String)
  destinations : Option (List String)
  ports : Option (List Port)
  enabled : Option Bool
  note : Option (Option String)

def decimal (n : ℕ) : String := String.ofList (Nat.toDigits 10 n)

/-- Append a value that is not in the list yet. -/
def pushNew {α : Type} [DecidableEq α] (out : List α) (c : α) : List α :=
  if c ∈ out then out else out ++ [c]

/-- A loop that sanitizes each entry and collects the results without duplicates. -/
def collectNew {α β : Type} [DecidableEq β] (entry : α → Except String β) (xs : List α) :
    Except String (List β) :=
  xs.foldlM (fun out raw => (entry raw).map (pushNew out)) []

def cidrEntry (field raw : String) : Except String String :=
  match canonicalCidr raw with
  | none => .error (field ++ " contains invalid IPv4 address/CIDR: " ++ echoValue raw)
  | some c => .ok c.render

def nonEmpty (field : String) (allowEmpty : Bool) (out : List String) :
    Except String (List String) :=
  if !allowEmpty && out.isEmpty then .error (field ++ " must not be empty") else .ok out

def sanitizeCidrList (field : String) (input : Field (JsonList String)) (allowEmpty : Bool) :
    Except String (List String) :=
  match input with
  | .undefined | .null => nonEmpty field allowEmpty []
  | .value .other => .error (field ++ " must be an array of IPv4 addresses/CIDRs")
  | .value (.array value) =>
    if value.length > maxList then .error (field ++ ": at most " ++ decimal maxList ++ " entries")
    else (collectNew (cidrEntry field) value).bind (nonEmpty field allowEmpty)

/-- One or two numbers of up to five digits around a colon. -/
def portRange (text : List Char) : Option (ℕ × ℕ) :=
  match text.splitOn ':' with
  | [a] => (Text.number 5 a).map fun n => (n, n)
  | [a, b] => (Text.number 5 a).bind fun n => (Text.number 5 b).map fun m => (n, m)
  | _ => none

/-- The port of a request may use a dash as well. -/
def requestedRange (text : List Char) : Option (ℕ × ℕ) :=
  portRange (text.map fun c => if c = '-' then ':' else c)

def portText (first last : ℕ) : String :=
  if first = last then decimal first else decimal first ++ ":" ++ decimal last

def portEntry (raw : PortEntry) : Except String Port :=
  let proto := String.ofList ((raw.proto.getD "tcp").toList.map Char.toLower)
  if proto ∉ ingressProtos then .error ("ports: invalid protocol " ++ echoValue proto)
  else
    let portStr := Text.trim (raw.port.getD "").toList
    match requestedRange portStr with
    | none => .error ("ports: invalid port " ++ echoValue (String.ofList portStr))
    | some (first, last) =>
      if first < 1 ∨ last > 65535 ∨ last < first then
        .error ("ports: invalid port " ++ echoValue (String.ofList portStr))
      else .ok ⟨proto, portText first last⟩

def sanitizePorts (value : Field (JsonList PortEntry)) : Except String (List Port) :=
  match value with
  | .undefined | .null => .ok []
  | .value .other => .error "ports must be an array"
  | .value (.array value) =>
    if value.length > maxList then .error ("ports: at most " ++ decimal maxList ++ " entries")
    else collectNew portEntry value

def isControl (c : Char) : Bool := c.toNat ≤ 0x1f || c.toNat == 0x7f

def cleanText (value : Field String) (max : ℕ) : String :=
  match value with
  | .undefined | .null => ""
  | .value s =>
    String.ofList
      (Text.slice max (Text.trim (s.toList.map fun c => if isControl c then ' ' else c)))

/-- Number of iptables lines a rule expands to (sources × destinations × ports). -/
def lineCount (sources destinations : List String) (ports : List Port) : ℕ :=
  sources.length * max 1 destinations.length * max 1 ports.length

def ruleLineCount (r : Rule) : ℕ := lineCount r.sources r.destinations r.ports

def assertLineCount (lines : ℕ) : Except String Unit :=
  if lines > maxLinesPerRule then
    .error ("Freigabe ergibt " ++ decimal lines ++
      " Filterzeilen (Quellen × Ziele × Ports), erlaubt sind höchstens " ++
        decimal maxLinesPerRule ++
      " – bitte aufteilen oder zusammenfassen")
  else .ok ()

def assertRuleLineCount (r : Rule) : Except String Unit := assertLineCount (ruleLineCount r)

/-- The estimate of `assertTotalLineCount`: every rule line once per interface. -/
def totalLineCount (rules : List Rule) (ifaceCount : ℕ) : ℕ :=
  ((rules.filter (·.enabled)).map ruleLineCount).sum * max 1 ifaceCount

def assertTotalLineCount (rules : List Rule) (ifaceCount : ℕ) : Except String Unit :=
  if totalLineCount rules ifaceCount > maxLinesTotal then
    .error
      ("Die aktiven Freigaben ergeben zusammen " ++ decimal (totalLineCount rules ifaceCount) ++
      " Filterzeilen, erlaubt sind höchstens " ++ decimal maxLinesTotal ++
      " – bitte Freigaben zusammenfassen oder deaktivieren")
  else .ok ()

def sanitizeName (value : Field String) : Except String String :=
  if cleanText value nameMax = "" then .error "name is required" else .ok (cleanText value nameMax)

def sanitizeEnabled : Field Flag → Bool
  | .undefined => true
  | .null => false
  | .value (.bool b) => b
  | .value (.number n) => n ≠ 0
  | .value (.text s) => s ≠ "" && s ≠ "false"

def sanitizeNote (value : Field String) : Option String :=
  if cleanText value noteMax = "" then none else some (cleanText value noteMax)

/-- A field is sanitized unless a partial request leaves it out. -/
def whenGiven {α β : Type} (isPartial : Bool) (field : Field α) (clean : Except String β) :
    Except String (Option β) :=
  if isPartial && field.isUndefined then .ok none else clean.map some

def sanitizeIngressRule (d : RulePayload) (isPartial : Bool) : Except String RulePatch := do
  let name ← whenGiven isPartial d.name (sanitizeName d.name)
  let sources ← whenGiven isPartial d.sources (sanitizeCidrList "sources" d.sources false)
  let destinations ← whenGiven isPartial d.destinations
    (sanitizeCidrList "destinations" d.destinations true)
  let ports ← whenGiven isPartial d.ports (sanitizePorts d.ports)
  let enabled ← whenGiven isPartial d.enabled (.ok (sanitizeEnabled d.enabled))
  let note ← whenGiven isPartial d.note (.ok (sanitizeNote d.note))
  if !isPartial then
    assertLineCount (lineCount (sources.getD []) (destinations.getD []) (ports.getD []))
  return ⟨name, sources, destinations, ports, enabled, note⟩

def sanitizeIngressMode (mode : String) : Except String IngressMode :=
  match String.ofList (Text.trim mode.toList) with
  | "open" => .ok .open_
  | "restricted" => .ok .restricted
  | _ => .error "ingress_mode must be one of: open, restricted"

/-- A query of the tester or of a check: canonical source and destination. -/
structure Flow where
  src : String
  dst : String
  port : Option ℕ
  proto : String

def portCovers (flow : Flow) (p : Port) : Bool :=
  p.proto == flow.proto &&
    match flow.port, portRange p.port.toList with
    | some port, some (a, b) => a ≤ port && port ≤ b
    | _, _ => false

/-- `ruleCovers`: an enabled rule lets the flow through. -/
def ruleCovers (rule : Rule) (flow : Flow) : Bool :=
  rule.enabled && rule.sources.any (cidrContains · flow.src) &&
    (rule.destinations.isEmpty || rule.destinations.any (cidrContains · flow.dst)) &&
    (rule.ports.isEmpty || flow.port.isSome && rule.ports.any (portCovers flow))

/-! Building the iptables chain. -/

/-- `/^wg\d{1,3}$/`. -/
def isWgIface (name : String) : Bool :=
  match name.toList with
  | 'w' :: 'g' :: digits => (Text.number 3 digits).isSome
  | _ => false

/-- `/^fgd\d{1,4}$/`. -/
def isDirectIface (name : String) : Bool :=
  match name.toList with
  | 'f' :: 'g' :: 'd' :: digits => (Text.number 4 digits).isSome
  | _ => false

inductive Target
  | accept
  | return_
  | drop
deriving DecidableEq

def Target.text : Target → String
  | accept => "ACCEPT"
  | return_ => "RETURN"
  | drop => "DROP"

/-- The lines of the `iptables-restore` text. -/
inductive Line
  | table
  | chain
  | established (target : Target)
  | rule (src : Cidr) (dst : Option Cidr) (inIface : String) (port : Option Port) (id : ℕ)
      (target : Target)
  | drop (inIface : String)
  | commit
deriving DecidableEq

namespace Line

def render : Line → String
  | table => "*filter"
  | chain => ":FG_IN - [0:0]"
  | established target => "-A FG_IN -m conntrack --ctstate RELATED,ESTABLISHED -j " ++ target.text
  | rule src dst inIface port id target =>
    "-A FG_IN -s " ++ src.render ++ (dst.elim "" fun d => " -d " ++ d.render) ++ " -i " ++
      inIface ++
      (port.elim "" fun p => " -p " ++ p.proto ++ " -m " ++ p.proto ++ " --dport " ++ p.port) ++
      " -m comment --comment \"fg:" ++ decimal id ++ "\" -j " ++ target.text
  | drop inIface => "-A FG_IN -i " ++ inIface ++ " -j DROP"
  | commit => "COMMIT"

end Line

/-- The partner of a direct link: its hub tunnel address (as its configuration
spells it) and its address on the link. -/
structure DirectAlias where
  iface : String
  hub : String
  direct : Ip

def hostCidr (x : Ip) : Cidr := .around x 32 (by decide)

structure FilterInput where
  ingressMode : IngressMode
  iface : String
  directIfaces : List String
  directAliases : List DirectAlias

namespace FilterInput

def ifaces (inp : FilterInput) : List String := inp.iface :: inp.directIfaces

def target (inp : FilterInput) : Target :=
  if inp.ingressMode = .restricted then .accept else .return_

end FilterInput

inductive BuildError
  | invalidIface (iface : String)
  | invalidDirectIface (iface : String)
  | tooManyRules
  | ruleWithoutId
  | badCidr (id : ℕ)
  | badPort (id : ℕ)
  | tooManyLines
deriving DecidableEq

namespace BuildError

def message : BuildError → String
  | invalidIface iface => "invalid wg interface: " ++ iface
  | invalidDirectIface iface => "invalid direct interface: " ++ iface
  | tooManyRules => "too many ingress rules"
  | ruleWithoutId => "rule without id"
  | badCidr id => "rule " ++ decimal id ++ ": bad CIDR"
  | badPort id => "rule " ++ decimal id ++ ": bad port"
  | tooManyLines => "more than " ++ decimal maxLinesTotal ++ " ingress lines"

end BuildError

structure Restore where
  lines : List Line
  ruleCount : ℕ
deriving DecidableEq

namespace Restore

def text (out : Restore) : String := "\n".intercalate (out.lines.map Line.render) ++ "\n"

def hash (rt : Runtime) (out : Restore) : String := rt.sha256Hex out.text

end Restore

/-- An empty list means any. -/
def orAny {α : Type} (xs : List α) : List (Option α) := if xs.isEmpty then [none] else xs.map some

def validPort (p : Port) : Bool :=
  ingressProtos.contains p.proto && (portRange p.port.toList).isSome

/-- The partner's own traffic: a source covering the hub address admits the link
address, on that interface only. -/
def aliasApplies (inp : FilterInput) (src : Cidr) (al : DirectAlias) : Bool :=
  inp.directIfaces.contains al.iface && cidrContains src.render (al.hub ++ "/32") &&
    !cidrContains src.render (hostCidr al.direct).render

/-- What the innermost loops push for one source, destination and port, in order. -/
def comboItems (inp : FilterInput) (id : ℕ) (src : Cidr) (dst : Option Cidr) (p : Option Port) :
    List (Except BuildError Line) :=
  inp.ifaces.map (fun inIface =>
      if p.all validPort then .ok (.rule src dst inIface p id inp.target)
      else .error (.badPort id)) ++
    (inp.directAliases.filter (aliasApplies inp src)).map fun al =>
      .ok (.rule (hostCidr al.direct) dst al.iface p id inp.target)

/-- What one rule pushes, or the error it stops at. -/
def ruleItems (inp : FilterInput) (r : Rule) : List (Except BuildError Line) :=
  if r.id < 1 then [.error .ruleWithoutId]
  else match r.sources.mapM canonicalCidr, r.destinations.mapM canonicalCidr with
    | some sources, some destList =>
      if sources.isEmpty then [.error (.badCidr r.id)]
      else sources.flatMap fun src => (orAny destList).flatMap fun dst =>
        (orAny r.ports).flatMap fun p =>
        comboItems inp r.id src dst p
    | _, _ => [.error (.badCidr r.id)]

/-- Push the lines one by one under the cap. -/
def pushLines : List (Except BuildError Line) → List Line → Except BuildError (List Line)
  | [], lines => .ok lines
  | .error e :: _, _ => .error e
  | .ok l :: items, lines =>
    if lines.length + 1 > maxLinesTotal then .error .tooManyLines
    else pushLines items (lines ++ [l])

def activeRules (rules : List Rule) : List Rule :=
  (rules.filter (·.enabled)).insertionSort (·.id ≤ ·.id)

def buildIngressRestore (inp : FilterInput) (rules : List Rule) :
    Except BuildError (Option Restore) :=
  let active := activeRules rules
  if inp.ingressMode = .open_ ∧ active = [] then .ok none
  else if !isWgIface inp.iface then .error (.invalidIface inp.iface)
  else match inp.directIfaces.find? (!isDirectIface ·) with
    | some d => .error (.invalidDirectIface d)
    | none =>
      if active.length > maxRulesPerAgent then .error .tooManyRules
      else match pushLines (active.flatMap (ruleItems inp)) [] with
        | .error e => .error e
        | .ok lines => .ok (some
          { lines := [.table, .chain, .established inp.target] ++ lines ++
              (if inp.ingressMode = .restricted then inp.ifaces.map .drop else []) ++ [.commit]
            ruleCount := lines.length })

end FloppyGuard.Ingress
