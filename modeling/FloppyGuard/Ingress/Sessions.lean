import FloppyGuard.DirectLink.Rules
import FloppyGuard.Ingress.Filter
import FloppyGuard.Ingress.Store
import FloppyGuard.Lib.Run
import Mathlib.Logic.Function.Basic

/-! Freigaben and direct links edited at the same time, and the filter an agent is sent. A rule
request holds its agent's lock from the reads it checks to its commit, but reads the direct links
outside the transaction; a direct link request takes no lock at all. -/
namespace FloppyGuard.Ingress

open DirectLink

/-- What no request changes here: the interface and the `Address` line of each agent's
configuration. -/
structure World where
  wgInterface : ℕ → String
  hubAddress : ℕ → Option String

def ifaceOf (wgInterface : String) : String := if isWgIface wgInterface then wgInterface else "wg0"

/-- A rule request that has passed its checks and holds the lock. -/
structure Pending where
  request : Request
  ifaces : ℕ
  now : ℕ
  next : Agent

/-- A direct link request: the sanitized body, or the row it loaded and the fields to change. -/
inductive LinkWrite
  | create (clean : Link)
  | update (existing : Link) (patch : LinkPatch)

/-- The complete link the checks see; a new one has no id yet. -/
def LinkWrite.link : LinkWrite → Link
  | create clean => { clean with id := 0 }
  | update existing patch => patch.merge existing

/-- A direct link request under way, with what it has read so far. -/
structure LinkSession where
  write : LinkWrite
  others : Option (List Link)
  rulesA : Option (List Rule)
  rulesB : Option (List Rule)

abbrev LinkTable := Rows Link Link.id

structure State where
  agents : ℕ → Agent
  locked : ℕ → Option Pending
  links : LinkTable
  sessions : ℕ → Option LinkSession

/-- What the write of a direct link request does to the table. -/
def LinkWrite.apply (w : LinkWrite) (t : LinkTable) : LinkTable :=
  match w with
  | create clean => t.insert (fun id => { clean with id := id }) fun _ => rfl
  | update existing patch => t.patch (·.id = existing.id) patch.merge fun _ => rfl

def filterInput (w : World) (links : List Link) (k : ℕ) (mode : IngressMode) : FilterInput where
  ingressMode := mode
  iface := ifaceOf (w.wgInterface k)
  directIfaces := ifacesFor links k
  directAliases := ingressAliasesFor w.hubAddress links k

/-- `payloadFor`: the filter built from the current rules, direct interfaces and aliases. -/
def payloadFor (w : World) (s : State) (k : ℕ) : Except BuildError (Option Restore) :=
  buildIngressRestore (filterInput w s.links.rows k (s.agents k).ingressMode) (s.agents k).rules

inductive Act
  | begin (k now : ℕ) (r : Request)
  | commit (k : ℕ)
  | rollback (k : ℕ)
  | elsewhere (k : ℕ)
  | openLink (i : ℕ) (w : LinkWrite)
  | readOthers (i : ℕ) (ctx : MeshContext)
  | readRulesA (i : ℕ)
  | readRulesB (i : ℕ)
  | writeLink (i : ℕ)
  | dropLink (id : ℕ)

namespace State

def setAgent (s : State) (k : ℕ) (a : Agent) : State :=
  { s with agents := Function.update s.agents k a }

def setLock (s : State) (k : ℕ) (p : Option Pending) : State :=
  { s with locked := Function.update s.locked k p }

def setLinks (s : State) (links : LinkTable) : State := { s with links := links }

def setSession (s : State) (i : ℕ) (o : Option LinkSession) : State :=
  { s with sessions := Function.update s.sessions i o }

variable {s : State} {k : ℕ} {a : Agent} {p : Option Pending} {links : LinkTable}
  {o : Option LinkSession}

@[simp] theorem agents_setLinks : (s.setLinks links).agents = s.agents := rfl

@[simp] theorem locked_setLinks : (s.setLinks links).locked = s.locked := rfl

@[simp] theorem sessions_setLinks : (s.setLinks links).sessions = s.sessions := rfl

@[simp] theorem links_setLinks : (s.setLinks links).links = links := rfl

@[simp] theorem agents_setSession {i : ℕ} : (s.setSession i o).agents = s.agents := rfl

@[simp] theorem links_setAgent : (s.setAgent k a).links = s.links := rfl

end State

/-- Reads and writes of the requests, one at a time. A request that is refused just ends. -/
inductive SessionStep (w : World) : State → Act → State → Prop
  | begin {s : State} {k now : ℕ} {r : Request} {next : Agent} : s.locked k = none →
    serve (ifaceCountOf s.links.rows k) now (s.agents k) r = .ok next →
    SessionStep w s (.begin k now r)
      (s.setLock k (some ⟨r, ifaceCountOf s.links.rows k, now, next⟩))
  | commit {s : State} {k : ℕ} {p : Pending} : s.locked k = some p →
    SessionStep w s (.commit k) ((s.setAgent k p.next).setLock k none)
  | rollback {s : State} {k : ℕ} : SessionStep w s (.rollback k) (s.setLock k none)
  -- another agent's rule takes an id
  | elsewhere {s : State} {k : ℕ} : s.locked k = none →
    SessionStep w s (.elsewhere k)
      (s.setAgent k { s.agents k with table := (s.agents k).table.skip })
  | create {s : State} {i : ℕ} {clean : Link} : s.sessions i = none →
      clean.agentAId ≠ clean.agentBId →
    SessionStep w s (.openLink i (.create clean))
      (s.setSession i (some ⟨.create clean, none, none, none⟩))
  | update {s : State} {i : ℕ} {existing : Link} {patch : LinkPatch} : s.sessions i = none →
    existing ∈ s.links.rows → (patch.merge existing).agentAId ≠ (patch.merge existing).agentBId →
    SessionStep w s (.openLink i (.update existing patch))
      (s.setSession i (some ⟨.update existing patch, none, none, none⟩))
  | readOthers {s : State} {i : ℕ} {o : LinkSession} {ctx : MeshContext} : s.sessions i = some o →
    o.others = none → ctx.others = s.links.rows → assertDirectLinkFits o.write.link ctx = .ok () →
    SessionStep w s (.readOthers i ctx)
      (s.setSession i (some { o with others := some s.links.rows }))
  | readRulesA {s : State} {i : ℕ} {o : LinkSession} {others : List Link} : s.sessions i = some o →
    o.others = some others → o.rulesA = none →
    assertSideFits o.write.link others o.write.link.agentAId
      (s.agents o.write.link.agentAId).rules = .ok () →
    SessionStep w s (.readRulesA i)
      (s.setSession i (some { o with rulesA := some (s.agents o.write.link.agentAId).rules }))
  | readRulesB {s : State} {i : ℕ} {o : LinkSession} {others : List Link} : s.sessions i = some o →
    o.others = some others → o.rulesA.isSome = true → o.rulesB = none →
    assertSideFits o.write.link others o.write.link.agentBId
      (s.agents o.write.link.agentBId).rules = .ok () →
    SessionStep w s (.readRulesB i)
      (s.setSession i (some { o with rulesB := some (s.agents o.write.link.agentBId).rules }))
  -- only an enabled link has its size checked
  | writeLink {s : State} {i : ℕ} {o : LinkSession} : s.sessions i = some o →
      o.others.isSome = true →
    (o.write.link.enabled = true → o.rulesB.isSome = true) →
    SessionStep w s (.writeLink i) ((s.setSession i none).setLinks (o.write.apply s.links))
  -- a deleted row, or a new one whose id is too large
  | dropLink {s : State} {id : ℕ} : SessionStep w s (.dropLink id) (s.setLinks (s.links.delete id))

end FloppyGuard.Ingress
