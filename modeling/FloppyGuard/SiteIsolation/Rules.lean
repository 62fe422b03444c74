import FloppyGuard.Cidr
import Mathlib.Data.List.Sort

/-! `site-isolation-rules.js`: links, site networks, the plan, the nft script and the verdict. -/
namespace FloppyGuard

/-- Functions of the JavaScript runtime the code calls and that are not part of it. -/
structure Runtime where
  sha256Hex : String → String
  normalizeNfkd : List Char → List Char

/-- `echoValue`: a value quoted in a message, clipped to 64 units. -/
def echoValue (v : String) : String :=
  if Text.units v.toList > 64 then String.ofList (Text.slice 64 v.toList) ++ "…" else v

/-- `x || y` on strings. -/
def orElse (x y : String) : String := if x = "" then y else x

inductive LinkType
  | client
  | siteToSite
  | hubLink
  | imported
  | unknown
deriving DecidableEq

namespace SiteIsolation

structure Link where
  id : String
  name : String
  type : Option LinkType
  importedNetworks : List String
  tunnelAddresses : List String
  active : Bool
  live : Bool
deriving DecidableEq

/-- Members of `SITE_LINK_TYPES`. -/
def isSiteLink (l : Link) : Bool := l.type == some .siteToSite || l.type == some .hubLink

structure Pair where
  a : String
  b : String
deriving DecidableEq

def pairKey (p : Pair) : String := p.a ++ "|" ++ p.b

/-- `new Map(links.map((l) => [l.id, l])).get(id)`: the last entry of an id wins. -/
def byId (links : List Link) (id : String) : Option Link := links.reverse.find? (·.id == id)

inductive SkipReason
  | ipv6Unsupported
  | invalid
  | defaultRoute
deriving DecidableEq

structure Skipped where
  value : String
  reason : SkipReason
deriving DecidableEq

/-- One entry of `importedNetworks`. -/
def importedEntry (v : String) : Cidr ⊕ Skipped :=
  if v.toList.contains ':' then .inr ⟨echoValue v, .ipv6Unsupported⟩
  else match canonicalCidr v with
    | none => .inr ⟨echoValue v, .invalid⟩
    | some c => if c.len = 0 then .inr ⟨c.render, .defaultRoute⟩ else .inl c

/-- One entry of `tunnelAddresses`: only a `/32` counts, an empty value is passed over. -/
def tunnelEntry (v : String) : Option (Cidr ⊕ Skipped) :=
  match canonicalCidr (if v.toList.contains '/' then v else v ++ "/32") with
  | some c => if c.len = 32 then some (.inl c) else some (.inr ⟨echoValue v, .invalid⟩)
  | none => if v = "" then none else some (.inr ⟨echoValue v, .invalid⟩)

def netEntries (l : Link) : List (Cidr ⊕ Skipped) :=
  l.importedNetworks.map importedEntry ++ l.tunnelAddresses.filterMap tunnelEntry

/-- Address order, then the shorter prefix first. -/
def netLe (x y : Cidr) : Prop := x.base < y.base ∨ (x.base = y.base ∧ x.len ≤ y.len)

instance : DecidableRel netLe := fun _ _ => inferInstanceAs (Decidable (_ ∨ _))

/-- Entries inside another entry are removed: an nft interval set rejects overlaps. -/
def outermost (uniq : List Cidr) : List Cidr :=
  uniq.filter fun n => !uniq.any fun o => decide (o ≠ n) && decide (o.Contains n)

structure SiteNetworks where
  nets : List Cidr
  skipped : List Skipped

def siteNetworks (l : Link) : SiteNetworks where
  nets := (outermost ((netEntries l).filterMap Sum.getLeft?).eraseDups).insertionSort netLe
  skipped := (netEntries l).filterMap Sum.getRight?

structure Site where
  id : String
  name : String
  set : String
  nets : List Cidr

/-- Stable set name of a link id. -/
def siteSetName (rt : Runtime) (linkId : String) : String :=
  "site_" ++ String.ofList (Text.slice 10 (rt.sha256Hex linkId).toList)

inductive PlanWarning
  | networkSkipped (linkId name value : String) (reason : SkipReason)
  | linkMissing (linkId : String) (pair : Pair)
  | linkNotSite (linkId name : String) (pair : Pair)
  | noNetworks (linkId name other : String) (pair : Pair)
  | overlap (pair : Pair) (nameA nameB : String) (networks : List Cidr)
deriving DecidableEq

namespace PlanWarning

def code : PlanWarning → String
  | networkSkipped .. => "network-skipped"
  | linkMissing .. => "link-missing"
  | linkNotSite .. => "link-not-site"
  | noNetworks .. => "no-networks"
  | overlap .. => "overlap"

def message : PlanWarning → String
  | networkSkipped _ name value .defaultRoute =>
    name ++ ": Standardroute " ++ value ++ " wird für die Trennung ignoriert"
  | networkSkipped _ name value .ipv6Unsupported =>
    name ++ ": IPv6-Netz " ++ value ++ " wird von der Standort-Trennung nicht erfasst"
  | networkSkipped _ name value .invalid =>
    name ++ ": ungültiges Netz " ++ value ++ " wird ignoriert"
  | linkMissing id _ =>
    "Standort " ++ id ++ " existiert nicht mehr — diese Trennung wird übersprungen"
  | linkNotSite _ name _ =>
    name ++ " ist kein Standort-Link mehr — diese Trennung wird übersprungen"
  | noNetworks _ name other _ =>
    name ++ " hat keine Netze — die Trennung zu " ++ other ++ " greift nicht"
  | overlap _ nameA nameB networks =>
    nameA ++ " und " ++ nameB ++ " haben überlappende Netze (" ++
      ", ".intercalate (networks.map Cidr.render) ++ ") — Verkehr darin wird ebenfalls verworfen"

end PlanWarning

structure Plan where
  sites : List Site
  pairs : List Pair
  warnings : List PlanWarning

namespace Plan

def site? (plan : Plan) (id : String) : Option Site := plan.sites.find? (·.id == id)

def warn (plan : Plan) (ws : List PlanWarning) : Plan :=
  { plan with warnings := plan.warnings ++ ws }

end Plan

section Planning
variable (rt : Runtime)

def newSite (id : String) (l : Link) : Site where
  id := id
  name := orElse l.name id
  set := siteSetName rt id
  nets := (siteNetworks l).nets

/-- `siteFor`: the site of a link id, built with its warnings on first use. -/
def siteFor (plan : Plan) (id : String) (l : Link) : Site × Plan :=
  match plan.site? id with
  | some s => (s, plan)
  | none =>
    let ws := (siteNetworks l).skipped.map fun s =>
      PlanWarning.networkSkipped id (orElse l.name id) s.value s.reason
    (newSite rt id l, { plan.warn ws with sites := plan.sites ++ [newSite rt id l] })

/-- One stored pair: skipped with warnings, or taken over as enforced. -/
def planPair (links : List Link) (plan : Plan) (p : Pair) : Plan :=
  match byId links p.a, byId links p.b with
  | some la, some lb =>
    let notSite := [(p.a, la), (p.b, lb)].filter fun x => !isSiteLink x.2
    if notSite ≠ [] then
      plan.warn (notSite.map fun x => .linkNotSite x.1 (orElse x.2.name x.1) p)
    else
      let (A, plan) := siteFor rt plan p.a la
      let (B, plan) := siteFor rt plan p.b lb
      let empty := [(A, B), (B, A)].filter fun x => x.1.nets.isEmpty
      if empty ≠ [] then
        plan.warn (empty.map fun x => .noNetworks x.1.id x.1.name x.2.name p)
      else
        let overlap := A.nets.filter fun x => B.nets.any fun y => decide (x.Overlaps y)
        let plan := if overlap ≠ [] then plan.warn [.overlap p A.name B.name overlap] else plan
        { plan with pairs := plan.pairs ++ [p] }
  | _, _ =>
    plan.warn (([p.a, p.b].filter fun id => (byId links id).isNone).map fun id => .linkMissing id p)

/-- What the table will contain. Only sites of an enforced pair keep a set. -/
def planSiteIsolation (pairs : List Pair) (links : List Link) : Plan :=
  let plan := pairs.foldl (planPair rt links) ⟨[], [], []⟩
  let used := plan.pairs.flatMap fun p => [p.a, p.b]
  { plan with sites := plan.sites.filter fun s => used.contains s.id }

end Planning

/-- Umlauts are transliterated before the NFKD normalisation. -/
def translit : Char → List Char
  | 'ä' => ['a', 'e']
  | 'ö' => ['o', 'e']
  | 'ü' => ['u', 'e']
  | 'Ä' => ['A', 'e']
  | 'Ö' => ['O', 'e']
  | 'Ü' => ['U', 'e']
  | 'ß' => ['s', 's']
  | c => [c]

def isCommentChar (c : Char) : Bool :=
  (c.isAlphanum && c.toNat < 128) || " ._()+:<>-".toList.contains c

/-- Text for an nft comment: plain ASCII without quotes, clipped, never empty. -/
def sanitizeCommentText (rt : Runtime) (value : String) (max : ℕ) : String :=
  let s := rt.normalizeNfkd (value.toList.flatMap translit)
  let s := s.map fun c => if isCommentChar c then c else ' '
  let s := Text.trim (Text.collapse s)
  orElse (String.ofList (Text.trim (Text.slice max s))) "site"

/-- The lines of the script; a set definition is the six lines it prints. -/
inductive NftLine
  | raw (text : String)
  | set (name comment : String) (elements : List Cidr)
  | drop (saddr daddr comment : String)
deriving DecidableEq

namespace NftLine

def render : NftLine → List String
  | raw text => [text]
  | set name comment elements =>
    ["\tset " ++ name ++ " \x7b", "\t\ttype ipv4_addr", "\t\tflags interval",
      "\t\tcomment \"" ++ comment ++ "\"",
      "\t\telements = \x7b " ++ ", ".intercalate (elements.map Cidr.render) ++ " \x7d", "\t\x7d"]
  | drop saddr daddr comment =>
    ["\t\tip saddr @" ++ saddr ++ " ip daddr @" ++ daddr ++ " counter drop comment \"" ++
      comment ++ "\""]

end NftLine

abbrev Script := List NftLine

/-- The text written to the file and hashed. -/
def Script.text (s : Script) : String := "\n".intercalate (s.flatMap NftLine.render)

section Building
variable (rt : Runtime)

def setLine (s : Site) : NftLine := .set s.set (sanitizeCommentText rt s.name 48) s.nets

def dropLine (x y : Site) : NftLine :=
  .drop x.set y.set (sanitizeCommentText rt
    ("Standort-Trennung " ++ sanitizeCommentText rt x.name 40 ++ " -> " ++
      sanitizeCommentText rt y.name 40) 100)

/-- Both directions of one enforced pair. -/
def pairLines (plan : Plan) (p : Pair) : List NftLine :=
  match plan.site? p.a, plan.site? p.b with
  | some A, some B => [dropLine rt A B, dropLine rt B A]
  | _, _ => []

def buildSiteIsolationNft (pairs : List Pair) (links : List Link) : Except String Script :=
  let plan := planSiteIsolation rt pairs links
  let ordered := plan.sites.insertionSort fun x y => Text.le x.set.toList y.set.toList
  match (ordered.flatMap (·.nets)).find? fun n => canonicalCidr n.render ≠ some n with
  | some n => .error ("site isolation: refusing non-canonical CIDR " ++ echoValue n.render)
  | none => .ok <|
    [.raw "#!/usr/sbin/nft -f",
      .raw "# Managed by FloppyGuard - Standorte untereinander (site isolation). Do not edit:",
      .raw "# the backend replaces this table atomically on every change.",
      .raw "table inet floppyguard_sites \x7b\x7d",
      .raw "delete table inet floppyguard_sites",
      .raw "table inet floppyguard_sites \x7b"] ++
    ordered.map (setLine rt) ++
    [.raw "\tchain forward \x7b",
      .raw "\t\ttype filter hook forward priority filter - 10; policy accept;"] ++
    plan.pairs.flatMap (pairLines rt plan) ++
    [.raw "\t\x7d", .raw "\x7d", .raw ""]

end Building

def scriptHash (rt : Runtime) (s : Script) : String := rt.sha256Hex s.text

structure PairRef where
  a : String
  b : String
  nameA : String
  nameB : String
  aToB : Bool
deriving DecidableEq

structure Verdict where
  blocked : Bool
  isPartial : Bool
  pair : Option PairRef
deriving DecidableEq

def inSet (s : Site) (c : Cidr) : Bool := s.nets.any fun n => decide (n.Contains c)

def touches (s : Site) (c : Cidr) : Bool := s.nets.any fun n => decide (n.Overlaps c)

/-- The loop of `siteIsolationVerdict` over the enforced pairs; `part` is the
first pair the ranges only overlap. -/
def verdictLoop (plan : Plan) (s d : Cidr) : List Pair → Option PairRef → Verdict
  | [], part => ⟨false, part.isSome, part⟩
  | p :: ps, part =>
    match plan.site? p.a, plan.site? p.b with
    | some A, some B =>
      let ref := PairRef.mk p.a p.b A.name B.name
      if inSet A s && inSet B d then ⟨true, false, some (ref true)⟩
      else if inSet B s && inSet A d then ⟨true, false, some (ref false)⟩
      else
        let part := if part.isNone && touches A s && touches B d then some (ref true) else part
        let part := if part.isNone && touches B s && touches A d then some (ref false) else part
        verdictLoop plan s d ps part
    | _, _ => verdictLoop plan s d ps part

/-- Would the hub drop `src → dst` because of an isolation pair? -/
def siteIsolationVerdict (rt : Runtime) (pairs : List Pair) (links : List Link) (src dst : String) :
    Verdict :=
  match canonicalCidr src, canonicalCidr dst with
  | some s, some d =>
    let plan := planSiteIsolation rt pairs links
    verdictLoop plan s d plan.pairs none
  | _, _ => ⟨false, false, none⟩

end SiteIsolation
end FloppyGuard
