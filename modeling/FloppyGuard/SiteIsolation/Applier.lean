import FloppyGuard.Lib.Run
import FloppyGuard.SiteIsolation.Enforcement

/-! `createSiteIsolationApplier` of `site-isolation.js`: its memory, the kernel
table and the boot file. -/
namespace FloppyGuard.SiteIsolation

structure Input where
  pairs : List Pair
  links : List Link

inductive ApplierWarning
  | plan (w : PlanWarning)
  | linkMissingHeld (linkId name : String)
  | persistFailed (path error : String)
deriving DecidableEq

namespace ApplierWarning

def code : ApplierWarning → String
  | plan w => w.code
  | linkMissingHeld .. => "link-missing-held"
  | persistFailed .. => "persist-failed"

def message : ApplierWarning → String
  | plan w => w.message
  | linkMissingHeld _ name =>
    name ++
      " ist nicht mehr auffindbar — die Trennung bleibt vorerst mit den letzten bekannten " ++
      "Netzen bestehen"
  | persistFailed path error =>
    "Regeln aktiv, aber " ++ path ++ " konnte nicht geschrieben werden: " ++ error

end ApplierWarning

/-- What the applier remembers between applies. `lastLinks` and `missingStreak`
are the two maps beside `state`; an absent streak counts as zero. -/
structure Memory where
  hash : Option String
  script : Option Script
  at_ : Option ℕ
  error : Option String
  errorCode : Option String
  errorAt : Option ℕ
  planWarnings : List PlanWarning
  heldWarnings : List ApplierWarning
  persistError : Option String
  pairs : ℕ
  appliedPairs : List String
  persisted : Option String
  lastLinks : String → Option Link
  missingStreak : String → ℕ

def Memory.initial : Memory where
  hash := none
  script := none
  at_ := none
  error := none
  errorCode := none
  errorAt := none
  planWarnings := []
  heldWarnings := []
  persistError := none
  pairs := 0
  appliedPairs := []
  persisted := none
  lastLinks := fun _ => none
  missingStreak := fun _ => 0

/-- The applier with the two copies it writes. `loads` and `writes` are history:
the inputs whose script was loaded and the attempted boot copies, newest first. -/
structure World where
  mem : Memory
  kernel : Option Script
  boot : Option String
  loads : List Input
  writes : List String

/-- Failures of one apply, each with its error text: `nft list table`, staging the
temporary file, `nft -c`, `nft -f`, and writing the boot copy. -/
structure Faults where
  list : Option String
  stage : Option String
  check : Option String
  load : Option String
  persist : Option String

def Faults.none : Faults := ⟨.none, .none, .none, .none, .none⟩

/-- One `apply()` call: `input` is what `loadInput` (or the caller) hands over. -/
structure Apply where
  force : Bool
  input : Except String Input
  faults : Faults
  now : ℕ

structure Snapshot where
  hash : Option String
  at_ : Option ℕ
  error : Option String
  errorCode : Option String
  errorAt : Option ℕ
  warnings : List ApplierWarning
  pairs : ℕ
  appliedPairs : List String
  persisted : Option String

structure Result where
  ok : Bool
  changed : Bool
  snapshot : Snapshot

section Applier
variable (rt : Runtime) (path : String)

def errText (err : String) : String := String.ofList (Text.slice 2000 (Text.trim err.toList))

/-- `persistError` comes from the file system, whose errors have a text. -/
def warnings (m : Memory) : List ApplierWarning :=
  m.planWarnings.map .plan ++ m.heldWarnings ++
    match m.persistError with
    | some e => [.persistFailed path e]
    | none => []

def snapshot (m : Memory) : Snapshot where
  hash := m.hash
  at_ := m.at_
  error := m.error
  errorCode := m.errorCode
  errorAt := m.errorAt
  warnings := warnings path m
  pairs := m.pairs
  appliedPairs := m.appliedPairs
  persisted := m.persisted

/-- `fail(code, message)`: only the error fields change. -/
def fail (w : World) (now : ℕ) (code message : String) : Result × World :=
  let m := { w.mem with error := some message, errorCode := some code, errorAt := some now }
  (⟨false, false, snapshot path m⟩, { w with mem := m })

/-- `persistReported`: write the boot copy by rename, or note why it failed. -/
def persistReported (w : World) (script : Script) (fault : Option String) : World :=
  match fault with
  | none =>
    { w with
      mem := { w.mem with persisted := some path, persistError := none }
      boot := some script.text
      writes := script.text :: w.writes }
  | some e =>
    { w with
      mem := { w.mem with persisted := none, persistError := some (errText e) }
      writes := script.text :: w.writes }

/-- `HOLD_APPLIES`. -/
def holdApplies : ℕ := 1

/-- The ids of the stored pairs, each once. -/
def pairIds (pairs : List Pair) : List String := (pairs.flatMap fun p => [p.a, p.b]).eraseDups

def present (links : List Link) (id : String) : Bool := links.any (·.id == id)

/-- The last applied version of an id the input lacks, while its hold lasts. -/
def heldLink (m : Memory) (links : List Link) (id : String) : Option Link :=
  if present links id then none
  else if m.missingStreak id + 1 ≤ holdApplies then m.lastLinks id else none

def heldLinks (m : Memory) (input : Input) : List Link :=
  (pairIds input.pairs).filterMap (heldLink m input.links)

def nextStreak (m : Memory) (input : Input) (id : String) : ℕ :=
  if id ∈ pairIds input.pairs ∧ present input.links id = false then m.missingStreak id + 1 else 0

/-- `withHeldLinks`: the input as the plan should see it. -/
def withHeldLinks (m : Memory) (input : Input) : Input :=
  ⟨input.pairs, input.links ++ heldLinks m input⟩

def heldWarnings (m : Memory) (input : Input) : List ApplierWarning :=
  (heldLinks m input).map fun l => .linkMissingHeld l.id l.name

def unresolved (input : Input) : List Pair :=
  input.pairs.filter fun p =>
    !([p.a, p.b].all fun id => (byId input.links id).any isSiteLink)

/-- Pairs the plan lost while one of their links has no live view. -/
def blind (input : Input) (plan : Plan) : List Pair :=
  input.pairs.filter fun p =>
    !(plan.pairs.map pairKey).contains (pairKey p) &&
      [p.a, p.b].any fun id => (byId input.links id).any fun l => !l.live

/-- The fail-closed test: stored pairs that cannot be trusted to be resolved. -/
def linksUnresolved (input : Input) (plan : Plan) : Bool :=
  !input.pairs.isEmpty &&
    (!input.links.any isSiteLink || (unresolved input).length == input.pairs.length ||
      !(blind input plan).isEmpty)

def unresolvedMessage (input : Input) (plan : Plan) : String :=
  if (blind input plan).isEmpty then
    ("Keine gespeicherte Trennung passt zu einer vorhandenen Standort-Verbindung " ++
     "(WireGuard-Metadaten leer oder Verbindungen neu angelegt) — die bisherigen Regeln bleiben " ++
     "aktiv")
  else
    ("WireGuard-Status nicht lesbar und mindestens eine Trennung ließe sich daraus nicht mehr " ++
     "ableiten — die bisherigen Regeln bleiben aktiv")

/-- The first failing step between the temporary file and `nft -f`. -/
def Faults.nft (f : Faults) : Option String := f.stage <|> f.check <|> f.load

/-- Dry run, load and bookkeeping. `nft -f` is one transaction: on any failure
the table stays as it was. -/
def loadTable (w : World) (ev : Apply) (input : Input) (plan : Plan) (script : Script) :
    Result × World :=
  match ev.faults.nft with
  | some e => fail path w ev.now "nft" (errText e)
  | none =>
    let hash := scriptHash rt script
    let changed := some hash != w.mem.hash
    let m := { w.mem with
      hash := some hash
      script := some script
      at_ := some ev.now
      error := none
      errorCode := none
      errorAt := none
      pairs := plan.pairs.length
      appliedPairs := plan.pairs.map pairKey
      lastLinks := fun id => if (plan.site? id).isSome then byId input.links id else none }
    let w := { w with mem := m, kernel := some script, loads := input :: w.loads }
    let w := persistReported path w script ev.faults.persist
    (⟨true, changed, snapshot path w.mem⟩, w)

/-- A blank text of an error counts as none. -/
def truthy (error : Option String) : Option String := error.filter (· ≠ "")

/-- `!force && hash === state.hash && !state.error` and `nft list table` succeeds. -/
def upToDate (w : World) (ev : Apply) (script : Script) : Bool :=
  !ev.force && w.mem.hash == some (scriptHash rt script) && (truthy w.mem.error).isNone &&
    w.kernel.isSome && ev.faults.list.isNone

/-- An unchanged script: only a missing boot copy is written again. -/
def keepTable (w : World) (ev : Apply) (script : Script) : Result × World :=
  let w := if w.mem.persisted.isNone then persistReported path w script ev.faults.persist else w
  (⟨true, false, snapshot path w.mem⟩, w)

def applyOnce (ev : Apply) (w : World) : Result × World :=
  match ev.input with
  | .error e => fail path w ev.now "input" ("Eingaben nicht lesbar: " ++ errText e)
  | .ok raw =>
    let input := withHeldLinks w.mem raw
    let held := heldWarnings w.mem raw
    let w := { w with mem := { w.mem with missingStreak := nextStreak w.mem raw } }
    let plan := planSiteIsolation rt input.pairs input.links
    match buildSiteIsolationNft rt input.pairs input.links with
    | .error e => fail path w ev.now "input" ("Eingaben nicht lesbar: " ++ errText e)
    | .ok script =>
      let w := { w with mem := { w.mem with planWarnings := plan.warnings, heldWarnings := held } }
      if linksUnresolved input plan then
        fail path w ev.now "links-unresolved" (unresolvedMessage input plan)
      else if upToDate rt w ev script then keepTable path w ev script
      else loadTable rt path w ev input plan script

end Applier
end FloppyGuard.SiteIsolation
