import FloppyGuard.Ingress.Rules
import FloppyGuard.Lib.Checked
import FloppyGuard.Lib.Rows

/-! The stored Freigaben of one agent and the six operations on them (`agent-ingress.js`). Each runs
in a transaction that locks the agent row first, so it is one step on the state it reads. -/
namespace FloppyGuard.Ingress

def maxBulkRules : ℕ := 100

def maxBulkDisable : ℕ := 500

inductive ApiError
  | validation (message : String)
  | itemNotFound (id : ℕ)
deriving DecidableEq

/-- The rows of `agent_ingress_rule` with the agent's id. Other agents take ids from the same
counter. -/
abbrev Table := Rows Rule Rule.id

structure Agent where
  ingressMode : IngressMode
  table : Table

def Agent.rules (a : Agent) : List Rule := a.table.rows

/-- A sanitized request as a row. -/
def RulePatch.row (clean : RulePatch) (id armedOn : ℕ) : Rule where
  id := id
  name := clean.name.getD ""
  sources := clean.sources.getD []
  destinations := clean.destinations.getD []
  ports := clean.ports.getD []
  enabled := clean.enabled.getD true
  note := clean.note.getD none
  armedOn := some armedOn

/-- `{ ...existing, ...clean }`. -/
def RulePatch.merge (clean : RulePatch) (existing : Rule) : Rule where
  id := existing.id
  name := clean.name.getD existing.name
  sources := clean.sources.getD existing.sources
  destinations := clean.destinations.getD existing.destinations
  ports := clean.ports.getD existing.ports
  enabled := clean.enabled.getD existing.enabled
  note := clean.note.getD existing.note
  armedOn := existing.armedOn

def insertRule (clean : RulePatch) (armedOn : ℕ) (t : Table) : Table :=
  t.insert (clean.row · armedOn) fun _ => rfl

def ensure (ok : Bool) (e : ApiError) : Except ApiError Unit := if ok then .ok () else .error e

def assertNotEmptyRestricted (mode : IngressMode) (rules : List Rule) : Except ApiError Unit :=
  ensure (mode ≠ .restricted || rules.any (·.enabled))
    (.validation
      "Mindestens eine aktive Freigabe ist nötig, solange der Agent auf „nur Freigaben“ steht")

def assertRuleCount (count : ℕ) : Except ApiError Unit :=
  ensure (count ≤ maxRulesPerAgent)
    (.validation ("Maximal " ++ decimal maxRulesPerAgent ++ " Freigaben pro Agent"))

/-- A partial update that can enlarge the generated ruleset. -/
def updateCanGrow (clean : RulePatch) : Bool :=
  clean.sources.isSome || clean.destinations.isSome || clean.ports.isSome ||
    clean.enabled == some true

def portKey (p : Port) : String := p.proto ++ "/" ++ p.port

/-- A rule is armed again when it is switched on or its targets change (as sets). -/
def armedOnPatch (existing : Rule) (clean : RulePatch) (now : ℕ) : Option ℕ :=
  let switchedOn := clean.enabled == some true && !existing.enabled
  let targetsChanged := clean.sources.any (!·.isPerm existing.sources) ||
    clean.destinations.any (!·.isPerm existing.destinations) ||
    clean.ports.any fun ps => !(ps.map portKey).isPerm (existing.ports.map portKey)
  if switchedOn || targetsChanged then some now else none

/-- The row an update writes. -/
def updatedRow (existing : Rule) (clean : RulePatch) (now : ℕ) : Rule :=
  { clean.merge existing with armedOn := (armedOnPatch existing clean now).or existing.armedOn }

/-- Size caps only when the patch can grow the ruleset. -/
def assertGrowth (ifaceCount : ℕ) (clean : RulePatch) (merged : Rule) (rules : List Rule) :
    Except ApiError Unit :=
  if updateCanGrow clean then do
    (assertRuleLineCount merged).mapError .validation
    (assertTotalLineCount rules ifaceCount).mapError .validation
  else .ok ()

def create (ifaceCount now : ℕ) (data : RulePayload) (a : Agent) : Except ApiError (Rule × Agent) :=
  do
  let clean ← (sanitizeIngressRule data false).mapError .validation
  assertRuleCount (a.rules.length + 1)
  (assertTotalLineCount (a.rules ++ [clean.row a.table.nextId now]) ifaceCount).mapError .validation
  return (clean.row a.table.nextId now, { a with table := insertRule clean now a.table })

def update (ifaceCount now ruleId : ℕ) (data : RulePayload) (a : Agent) :
    Except ApiError (Rule × Agent) := do
  let clean ← (sanitizeIngressRule data true).mapError .validation
  match a.rules.find? (·.id = ruleId) with
  | none => .error (.itemNotFound ruleId)
  | some existing =>
    let rules := a.rules.map fun r => if r.id = ruleId then clean.merge existing else r
    assertGrowth ifaceCount clean (clean.merge existing) rules
    assertNotEmptyRestricted a.ingressMode rules
    return (updatedRow existing clean now,
      { a with table := a.table.patch (·.id = ruleId) (updatedRow · clean now) fun _ => rfl })

def delete (ruleId : ℕ) (a : Agent) : Except ApiError Agent :=
  match a.rules.find? (·.id = ruleId) with
  | none => .error (.itemNotFound ruleId)
  | some _ => do
    assertNotEmptyRestricted a.ingressMode (a.rules.filter (·.id ≠ ruleId))
    return { a with table := a.table.delete ruleId }

def setMode (ifaceCount : ℕ) (mode : String) (a : Agent) : Except ApiError Agent := do
  let m ← (sanitizeIngressMode mode).mapError .validation
  assertNotEmptyRestricted m a.rules
  (assertTotalLineCount a.rules ifaceCount).mapError .validation
  return { a with ingressMode := m }

/-! Bulk operations. -/

def sanitizeBulkList (list : JsonList RulePayload) : Except String (List RulePatch) :=
  match list with
  | .other => .error ("rules must be an array of 1 to " ++ decimal maxBulkRules ++ " Freigaben")
  | .array list =>
    if list.length < 1 ∨ list.length > maxBulkRules then
      .error ("rules must be an array of 1 to " ++ decimal maxBulkRules ++ " Freigaben")
    else list.zipIdx.mapM fun entry =>
      (sanitizeIngressRule entry.1 false).mapError fun message => "rules[" ++ decimal entry.2 ++
        "]: " ++ message

/-- Sources, destinations and ports, compared as sets. -/
structure Targets where
  sources : List (Option Cidr)
  destinations : List (Option Cidr)
  ports : List String

def targetKey (sources destinations : List String) (ports : List Port) : Targets :=
  ⟨sources.map canonicalCidr, destinations.map canonicalCidr, ports.map portKey⟩

namespace Targets

def same (k l : Targets) : Bool :=
  k.sources.isPerm l.sources && k.destinations.isPerm l.destinations && k.ports.isPerm l.ports

/-- The value under the first equal key. -/
def get {β : Type} (m : List (Targets × β)) (k : Targets) : Option β :=
  (m.find? (·.1.same k)).map (·.2)

end Targets

def Rule.targetKey (r : Rule) : Targets := Ingress.targetKey r.sources r.destinations r.ports

def RulePatch.targetKey (clean : RulePatch) : Targets :=
  Ingress.targetKey (clean.sources.getD []) (clean.destinations.getD []) (clean.ports.getD [])

/-- What the entries of a bulk request come to; the index is the entry's. -/
structure Dedupe where
  seen : List (Targets × Option ℕ)
  create : List (ℕ × RulePatch)
  reenable : List (ℕ × ℕ)
  skipped : List (ℕ × Option ℕ)

def Dedupe.entry (disabledByKey : List (Targets × ℕ)) (s : Dedupe) (e : RulePatch × ℕ) : Dedupe :=
  let k := e.1.targetKey
  match Targets.get s.seen k with
  | some ruleId => { s with skipped := s.skipped ++ [(e.2, ruleId)] }
  | none =>
    match Targets.get disabledByKey k with
    | some ruleId =>
      { s with reenable := s.reenable ++ [(e.2, ruleId)], seen := s.seen ++ [(k, some ruleId)] }
    | none => { s with create := s.create ++ [(e.2, e.1)], seen := s.seen ++ [(k, none)] }

def bulkDedupe (existing : List Rule) (clean : List RulePatch) : Dedupe :=
  let enabledByKey := (existing.filter (·.enabled)).map fun r => (r.targetKey, some r.id)
  let disabledByKey := (existing.filter (!·.enabled)).map fun r => (r.targetKey, r.id)
  clean.zipIdx.foldl (Dedupe.entry disabledByKey) ⟨enabledByKey, [], [], []⟩

structure BulkReply where
  created : List Rule
  reenabled : List Rule
  skipped : List (ℕ × Option ℕ)

def insertAll (fresh : List RulePatch) (armedOn : ℕ) (t : Table) : Table :=
  fresh.foldl (fun t clean => insertRule clean armedOn t) t

def enableRules (reIds : List ℕ) (armedOn : ℕ) (t : Table) : Table :=
  t.patch (·.id ∈ reIds) (fun r => { r with enabled := true, armedOn := some armedOn }) fun _ => rfl

def disableRules (ruleIds : List ℕ) (t : Table) : Table :=
  t.patch (·.id ∈ ruleIds) (fun r => { r with enabled := false }) fun _ => rfl

def createBulk (ifaceCount now : ℕ) (list : JsonList RulePayload) (a : Agent) :
    Except ApiError (BulkReply × Agent) := do
  let clean ← (sanitizeBulkList list).mapError .validation
  let split := bulkDedupe a.rules clean
  let fresh := split.create.map (·.2)
  let reIds := split.reenable.map (·.2)
  assertRuleCount (a.rules.length + fresh.length)
  let after := a.rules.map fun r => if r.id ∈ reIds then { r with enabled := true } else r
  (assertTotalLineCount (after ++ fresh.map (·.row 0 now)) ifaceCount).mapError .validation
  let inserted := insertAll fresh now a.table
  let table := enableRules reIds now inserted
  return (⟨inserted.rows.drop a.rules.length, table.rows.filter (·.id ∈ reIds), split.skipped⟩,
    { a with table := table })

/-- One entry of `rule_ids`: a whole number, or the text of anything else. -/
inductive IdEntry
  | number (n : ℤ)
  | other (text : String)

def IdEntry.text : IdEntry → String
  | number n => if n < 0 then "-" ++ decimal n.natAbs else decimal n.natAbs
  | other text => text

/-- The number an entry stands for. -/
def IdEntry.value : IdEntry → Option ℤ
  | number n => some n
  | other text => (Text.number text.toList.length text.toList).map Int.ofNat

def idEntry (v : IdEntry) : Except String ℕ :=
  match v.value with
  | some n => if n < 1 then .error ("rule_ids: invalid id " ++ echoValue v.text) else .ok n.toNat
  | none => .error ("rule_ids: invalid id " ++ echoValue v.text)

def sanitizeRuleIds (value : JsonList IdEntry) : Except String (List ℕ) :=
  match value with
  | .other => .error ("rule_ids must be an array of 1 to " ++ decimal maxBulkDisable ++ " ids")
  | .array value =>
    if value.length < 1 ∨ value.length > maxBulkDisable then
      .error ("rule_ids must be an array of 1 to " ++ decimal maxBulkDisable ++ " ids")
    else collectNew idEntry value

/-- With `prune`, every id must be a candidate of the catalog read before the lock. -/
def refuseOthers (allowed : Option (List ℕ)) (ruleIds : List ℕ) : Except ApiError Unit :=
  match allowed.bind fun allowed => ruleIds.find? (· ∉ allowed) with
  | none => .ok ()
  | some id => .error (.validation ("Freigabe " ++ decimal id ++
      " ist kein Kandidat (mehr) für „ungenutzt abschalten“ – Liste neu laden"))

def disableBulk (ids : JsonList IdEntry) (allowed : Option (List ℕ)) (a : Agent) :
    Except ApiError (List ℕ × Agent) := do
  let ruleIds ← (sanitizeRuleIds ids).mapError .validation
  refuseOthers allowed ruleIds
  match ruleIds.find? fun id => !a.rules.any (·.id = id) with
  | some missing => .error (.itemNotFound missing)
  | none =>
    let after := a.rules.map fun r => if r.id ∈ ruleIds then { r with enabled := false } else r
    assertNotEmptyRestricted a.ingressMode after
    return (ruleIds, { a with table := disableRules ruleIds a.table })

/-! Requests of any kind, one after the other. -/

inductive Request
  | create (data : RulePayload)
  | update (ruleId : ℕ) (data : RulePayload)
  | delete (ruleId : ℕ)
  | createBulk (list : JsonList RulePayload)
  | disableBulk (ids : JsonList IdEntry) (allowed : Option (List ℕ))
  | setMode (mode : String)

/-- What a request leaves behind. `ifaceCount` is what it reads of the direct links. -/
def serve (ifaceCount now : ℕ) (a : Agent) : Request → Except ApiError Agent
  | .create data => (create ifaceCount now data a).map (·.2)
  | .update ruleId data => (update ifaceCount now ruleId data a).map (·.2)
  | .delete ruleId => delete ruleId a
  | .createBulk list => (createBulk ifaceCount now list a).map (·.2)
  | .disableBulk ids allowed => (disableBulk ids allowed a).map (·.2)
  | .setMode mode => setMode ifaceCount mode a

inductive Event
  | request (ifaceCount now : ℕ) (r : Request)
  | elsewhere

/-- A refused request rolls back. -/
inductive Step : Agent → Event → Agent → Prop
  | accepted {a b : Agent} {n now : ℕ} {r : Request} : serve n now a r = .ok b →
      Step a (.request n now r) b
  | refused {a : Agent} {n now : ℕ} {r : Request} {e : ApiError} :
    serve n now a r = .error e → Step a (.request n now r) a
  | elsewhere {a : Agent} : Step a .elsewhere { a with table := a.table.skip }

/-! What each accepted request passed, and what it wrote. -/

open Checked

variable {ifaceCount now ruleId : ℕ} {data : RulePayload} {a b : Agent} {r : Rule}
  {list : JsonList RulePayload}
  {reply : BulkReply} {ids : JsonList IdEntry} {allowed : Option (List ℕ)} {mode : String}
  {rules : List Rule} {ruleIds : List ℕ}

@[simp] theorem ensure_eq_ok {ok : Bool} {e : ApiError} : ensure ok e = .ok () ↔ ok = true := by
  cases ok <;> simp [ensure]

@[simp] theorem assertNotEmptyRestricted_eq_ok {m : IngressMode} :
    assertNotEmptyRestricted m rules = .ok () ↔
    (m = .restricted → ∃ r ∈ rules, r.enabled = true) := by
  cases m <;> simp [assertNotEmptyRestricted]

@[simp] theorem assertRuleCount_eq_ok {n : ℕ} :
    assertRuleCount n = .ok () ↔ n ≤ maxRulesPerAgent := by
  simp [assertRuleCount]

@[simp] theorem assertLineCount_eq_ok {n : ℕ} :
    assertLineCount n = .ok () ↔ n ≤ maxLinesPerRule := by
  unfold assertLineCount
  split <;> simp <;> omega

@[simp] theorem assertTotalLineCount_eq_ok {n : ℕ} : assertTotalLineCount rules n = .ok () ↔
    totalLineCount rules n ≤ maxLinesTotal := by
  unfold assertTotalLineCount
  split <;> simp <;> omega

theorem assertGrowth_eq_ok {clean : RulePatch} {merged : Rule} :
    assertGrowth ifaceCount clean merged rules = .ok () ↔ (updateCanGrow clean = true →
      ruleLineCount merged ≤ maxLinesPerRule ∧
      totalLineCount rules ifaceCount ≤ maxLinesTotal) := by
  unfold assertGrowth
  split
  · rename_i hgrow
    simp [hgrow, unit_bind_eq_ok, mapError_eq_ok, assertRuleLineCount]
  · rename_i hgrow
    simp [hgrow]

theorem create_ok (h : create ifaceCount now data a = .ok (r, b)) : ∃ clean,
    sanitizeIngressRule data false = .ok clean ∧ a.rules.length + 1 ≤ maxRulesPerAgent ∧
      totalLineCount (a.rules ++ [clean.row a.table.nextId now]) ifaceCount ≤ maxLinesTotal ∧
      b = { a with table := insertRule clean now a.table } := by
  obtain ⟨clean, hclean, h⟩ := bind_eq_ok.mp h
  simp only [unit_bind_eq_ok, mapError_eq_ok, assertRuleCount_eq_ok, assertTotalLineCount_eq_ok]
    at h hclean
  obtain ⟨hcount, htotal, h⟩ := h
  exact ⟨clean, hclean, hcount, htotal, (Prod.mk.inj (Except.ok.inj h)).2.symm⟩

theorem update_ok (h : update ifaceCount now ruleId data a = .ok (r, b)) : ∃ clean existing,
    sanitizeIngressRule data true = .ok clean ∧ a.rules.find? (·.id = ruleId) = some existing ∧
      (updateCanGrow clean = true → ruleLineCount (clean.merge existing) ≤ maxLinesPerRule ∧
        totalLineCount (a.rules.map fun r => if r.id = ruleId then clean.merge existing else r)
          ifaceCount ≤
          maxLinesTotal) ∧
      (a.ingressMode = .restricted →
        ∃ r ∈ a.rules.map fun r => if r.id = ruleId then clean.merge existing else r,
        r.enabled = true) ∧
      b = { a with
        table := a.table.patch (·.id = ruleId) (updatedRow · clean now) fun _ => rfl } := by
  obtain ⟨clean, hclean, h⟩ := bind_eq_ok.mp h
  split at h
  · cases h
  · rename_i existing hexisting
    simp only [unit_bind_eq_ok, assertGrowth_eq_ok, assertNotEmptyRestricted_eq_ok] at h
    obtain ⟨hgrow, hmode, h⟩ := h
    exact ⟨clean, existing, mapError_eq_ok.mp hclean, hexisting, hgrow, hmode,
      (Prod.mk.inj (Except.ok.inj h)).2.symm⟩

theorem delete_ok (h : delete ruleId a = .ok b) :
    (a.ingressMode = .restricted → ∃ r ∈ a.rules.filter (·.id ≠ ruleId), r.enabled = true) ∧
      b = { a with table := a.table.delete ruleId } := by
  unfold delete at h
  split at h
  · cases h
  · rw [unit_bind_eq_ok, assertNotEmptyRestricted_eq_ok] at h
    exact ⟨h.1, (Except.ok.inj h.2).symm⟩

theorem setMode_ok (h : setMode ifaceCount mode a = .ok b) : ∃ m,
    sanitizeIngressMode mode = .ok m ∧ (m = .restricted → ∃ r ∈ a.rules, r.enabled = true) ∧
      totalLineCount a.rules ifaceCount ≤ maxLinesTotal ∧ b = { a with ingressMode := m } := by
  obtain ⟨m, hm, h⟩ := bind_eq_ok.mp h
  simp only [unit_bind_eq_ok, mapError_eq_ok, assertNotEmptyRestricted_eq_ok,
    assertTotalLineCount_eq_ok] at h hm
  exact ⟨m, hm, h.1, h.2.1, (Except.ok.inj h.2.2).symm⟩

theorem createBulk_ok (h : createBulk ifaceCount now list a = .ok (reply, b)) : ∃ clean fresh reIds,
    sanitizeBulkList list = .ok clean ∧ fresh = (bulkDedupe a.rules clean).create.map (·.2) ∧
      reIds = (bulkDedupe a.rules clean).reenable.map (·.2) ∧
      a.rules.length + fresh.length ≤ maxRulesPerAgent ∧
      totalLineCount
        ((a.rules.map fun r => if r.id ∈ reIds then { r with enabled := true } else r) ++
        fresh.map (·.row 0 now)) ifaceCount ≤ maxLinesTotal ∧
      b = { a with table := enableRules reIds now (insertAll fresh now a.table) } := by
  obtain ⟨clean, hclean, h⟩ := bind_eq_ok.mp h
  simp only [unit_bind_eq_ok, mapError_eq_ok, assertRuleCount_eq_ok, assertTotalLineCount_eq_ok]
    at h hclean
  exact ⟨clean, _, _, hclean, rfl, rfl, h.1, h.2.1, (Prod.mk.inj (Except.ok.inj h.2.2)).2.symm⟩

theorem disableBulk_ok (h : disableBulk ids allowed a = .ok (ruleIds, b)) :
    sanitizeRuleIds ids = .ok ruleIds ∧ (a.ingressMode = .restricted →
        ∃ r ∈ a.rules.map fun r => if r.id ∈ ruleIds then { r with enabled := false } else r,
        r.enabled = true) ∧
      b = { a with table := disableRules ruleIds a.table } := by
  obtain ⟨ruleIds', hids, h⟩ := bind_eq_ok.mp h
  rw [unit_bind_eq_ok] at h
  obtain ⟨-, h⟩ := h
  split at h
  · cases h
  · rw [unit_bind_eq_ok, assertNotEmptyRestricted_eq_ok] at h
    obtain ⟨rfl, rfl⟩ := Prod.mk.inj (Except.ok.inj h.2)
    exact ⟨mapError_eq_ok.mp hids, h.1, rfl⟩

theorem mem_insertAll {t : Table} {fresh : List RulePatch} (h : r ∈ (insertAll fresh now t).rows) :
    r ∈ t.rows ∨ ∃ clean ∈ fresh, ∃ id, r = clean.row id now := by
  induction fresh generalizing t with
  | nil => exact Or.inl h
  | cons c fresh ih =>
    rcases ih h with h | ⟨clean, hclean, h⟩
    · rcases Rows.mem_insert.mp h with h | h
      · exact Or.inl h
      · exact Or.inr ⟨c, List.mem_cons_self, _, h⟩
    · exact Or.inr ⟨clean, List.mem_cons_of_mem _ hclean, h⟩

theorem mem_insertAll_of_mem {t : Table} {fresh : List RulePatch} (h : r ∈ t.rows) :
    r ∈ (insertAll fresh now t).rows := by
  induction fresh generalizing t with
  | nil => exact h
  | cons c fresh ih => exact ih (Rows.mem_insert.mpr (Or.inl h))

/-- A bulk request creates entries of its own list only. -/
theorem mem_bulkDedupe {existing : List Rule} {list : List RulePatch} {e : ℕ × RulePatch}
    (h : e ∈ (bulkDedupe existing list).create) : e.2 ∈ list := by
  have hfold (byKey : List (Targets × ℕ)) (es : List (RulePatch × ℕ)) (s : Dedupe)
      (h : e ∈ (es.foldl (Dedupe.entry byKey) s).create) : e ∈ s.create ∨ (e.2, e.1) ∈ es := by
    induction es generalizing s with
    | nil => exact Or.inl h
    | cons x es ih =>
      rcases ih _ h with h | h
      · unfold Dedupe.entry at h
        dsimp only at h
        split at h
        · exact Or.inl h
        split at h
        · exact Or.inl h
        · rcases List.mem_append.mp h with h | h
          · exact Or.inl h
          · obtain rfl := List.mem_singleton.mp h
            exact Or.inr List.mem_cons_self
      · exact Or.inr (List.mem_cons_of_mem _ h)
  rcases hfold _ _ _ h with h | h
  · exact absurd h List.not_mem_nil
  · exact List.fst_mem_of_mem_zipIdx h

theorem sanitizeBulkList_ok {list : JsonList RulePayload} {cleans : List RulePatch}
    (h : sanitizeBulkList list = .ok cleans) :
    ∀ c ∈ cleans, ∃ d, sanitizeIngressRule d false = .ok c := by
  unfold sanitizeBulkList at h
  split at h
  · cases h
  · split at h
    · cases h
    · intro c hc
      obtain ⟨e, -, he⟩ := mem_of_mapM_eq_ok h c hc
      exact ⟨e.1, mapError_eq_ok.mp he⟩

end FloppyGuard.Ingress
