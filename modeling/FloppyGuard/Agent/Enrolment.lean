import FloppyGuard.Lib.Run
import Mathlib.Logic.Function.Basic

/-! Agent enrolment (`agent.js`): `register`, `getConfig` and `resetToken` on the row of one agent.
Every query is one step and every patch another; a patch writes whatever the row holds by then. -/
namespace FloppyGuard.Enrolment

/-- A random token, named by its draw: no two draws are equal. -/
abbrev Token := ℕ

structure Row where
  regToken : Option Token
  agentToken : Option Token
deriving DecidableEq

/-- What `register` does with the row it has read. -/
inductive Register
  | authError (message : String)
  | returns (agentToken : Token)
  | patches (agentToken : Token)

def register (regToken drawn : Token) (row : Row) : Register :=
  if row.regToken = some regToken then
    match row.agentToken with
    | some agentToken => .returns agentToken
    | none => .patches drawn
  else .authError "Invalid registration token"

/-- What `getConfig` does with the row it has read, as far as the tokens go. -/
inductive GetConfig
  | authError (message : String)
  | returns
  | retires (regToken : Token)

def getConfig (agentToken : Token) (row : Row) : GetConfig :=
  if row.agentToken = some agentToken then
    match row.regToken with
    | some regToken => .retires regToken
    | none => .returns
  else .authError "Invalid agent token"

/-- A call between its read and its last query. -/
inductive Call
  | registering (regToken agentToken : Token)
  | confirming (regToken : Token)
  | resetting (regToken : Token)
  | viewing
deriving DecidableEq

/-- What the callers and the database have seen. -/
inductive Event
  | reset (regToken : Token)
  | resetReturned (regToken : Option Token)
  | registered (regToken agentToken : Token)
  | authenticated (agentToken : Token)
deriving DecidableEq

/-- The row, the next draw, the calls under way and the events, newest first. -/
structure State where
  row : Row
  next : Token
  calls : ℕ → Option Call
  log : List Event

namespace State

def setCall (s : State) (c : ℕ) (o : Option Call) : State :=
  { s with calls := Function.update s.calls c o }

def record (s : State) (e : Event) : State := { s with log := e :: s.log }

end State

inductive Act
  | register (c : ℕ) (regToken : Token)
  | registerPatch (c : ℕ)
  | getConfig (c : ℕ) (agentToken : Token)
  | getConfigPatch (c : ℕ)
  | resetToken (c : ℕ)
  | resetPatch (c : ℕ)
  | resetView (c : ℕ)

/-- One query of one call. -/
def step (s : State) : Act → Option State
  | .register c regToken =>
    match s.calls c, register regToken s.next s.row with
    | some _, _ => none
    | none, .authError _ => some s
    | none, .returns agentToken => some (s.record (.registered regToken agentToken))
    | none, .patches agentToken =>
      some { s.setCall c (some (.registering regToken agentToken)) with next := s.next + 1 }
  | .registerPatch c =>
    match s.calls c with
    | some (.registering regToken agentToken) =>
      some { (s.setCall c none).record (.registered regToken agentToken) with
        row := { s.row with agentToken := some agentToken } }
    | _ => none
  | .getConfig c agentToken =>
    match s.calls c, getConfig agentToken s.row with
    | some _, _ => none
    | none, .authError _ => some s
    | none, .returns => some (s.record (.authenticated agentToken))
    | none, .retires regToken =>
      some ((s.setCall c (some (.confirming regToken))).record (.authenticated agentToken))
  | .getConfigPatch c =>
    match s.calls c with
    | some (.confirming _) => some { s.setCall c none with row := { s.row with regToken := none } }
    | _ => none
  | .resetToken c =>
    match s.calls c with
    | some _ => none
    | none => some { s.setCall c (some (.resetting s.next)) with next := s.next + 1 }
  | .resetPatch c =>
    match s.calls c with
    | some (.resetting regToken) =>
      some
        { (s.setCall c (some .viewing)).record (.reset regToken) with row := ⟨some regToken, none⟩ }
    | _ => none
  | .resetView c =>
    match s.calls c with
    | some .viewing => some ((s.setCall c none).record (.resetReturned s.row.regToken))
    | _ => none

/-- An agent just created, with its first registration token. -/
def created : State := ⟨⟨some 0, none⟩, 1, fun _ => none, [.reset 0]⟩

/-! Reading the log. -/

def Event.isReset : Event → Bool
  | reset _ => true
  | resetReturned _ | registered _ _ | authenticated _ => false

def Event.tokens : Event → List Token
  | reset regToken => [regToken]
  | resetReturned regToken => regToken.toList
  | registered regToken agentToken => [regToken, agentToken]
  | authenticated agentToken => [agentToken]

/-- Every token that was issued or used so far. -/
def tokens (log : List Event) : List Token := log.flatMap Event.tokens

def sinceReset (log : List Event) : List Event := log.takeWhile fun e => !e.isReset

def beforeReset (log : List Event) : List Event := (log.dropWhile fun e => !e.isReset).tail

/-- What the protocol promises of a state. `same`: what `register` returned since the last reset is
the token that authenticates. `revoked`: of the tokens from before the reset none is in the row, and
no call that presented one holds the token that authenticates. `usable`: the registration token a
reset returned is in the row until an agent token issued for it has authenticated. -/
structure Promised (s : State) : Prop where
  same : ∀ t a, .registered t a ∈ sinceReset s.log → s.row.agentToken = some a
  revoked : ∀ x ∈ tokens (beforeReset s.log), s.row.regToken ≠ some x ∧ s.row.agentToken ≠ some x ∧
    ∀ a, .registered x a ∈ s.log → s.row.agentToken ≠ some a
  usable : ∀ v, .resetReturned v ∈ sinceReset s.log →
    (v ≠ none ∧ s.row.regToken = v) ∨ ∃ r a, .reset r ∈ s.log ∧ r ∉ tokens (beforeReset s.log) ∧
      .registered r a ∈ s.log ∧ .authenticated a ∈ s.log

/-- A patch whose row is still the one its call has read, as far as the patch depends on it. -/
def Unchanged (s : State) : Act → Prop
  | .registerPatch c => ∀ t a, s.calls c = some (.registering t a) → s.row = ⟨some t, none⟩
  | .getConfigPatch c =>
    ∀ r, s.calls c = some (.confirming r) → s.row.regToken = none ∨ s.row.regToken = some r ∨
      ∃ a, .authenticated a ∈ sinceReset s.log
  | _ => True

end FloppyGuard.Enrolment
