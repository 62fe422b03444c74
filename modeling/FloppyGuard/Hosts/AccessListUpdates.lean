import FloppyGuard.Lib.Run
import Mathlib.Data.List.Nodup
import Mathlib.Logic.Function.Basic

/-! Updates of one access list: `update` and `build`, each query one step, and any of them may fail.
-/
namespace FloppyGuard.Hosts.AccessListUpdates

structure User where
  username : String
  password : String
deriving DecidableEq

inductive Directive
  | allow
  | deny
deriving DecidableEq

structure Rule where
  address : String
  directive : Directive
deriving DecidableEq

/-- The rows of the list in id order: an inserted row is the last one. -/
structure Rows where
  users : List User
  rules : List Rule
deriving DecidableEq

/-- The body of an update; `patches`: it has a name or a flag. A missing password is an empty one.
-/
structure Payload where
  patches : Bool
  items : Option (List User)
  clients : Option (List Rule)
  distinct : ∀ users, items = some users → (users.map User.username).Nodup

def validUsername (name : String) : Bool :=
  name ≠ "" && name.toList.all fun c => c ≠ ':' && 0x20 ≤ c.toNat

/-- `assertValidUsernames` -/
def validUsernames (items : Option (List User)) : Bool :=
  (items.getD []).all fun item => validUsername item.username

def itemsToKeep (items : List User) : List String :=
  (items.filter (·.password = "")).map User.username

/-- The users that the first delete leaves. -/
def kept (items users : List User) : List User := users.filter (·.username ∈ itemsToKeep items)

def withPassword (users : List User) : List User := users.filter (·.password ≠ "")

def withAddress (clients : List Rule) : List Rule := clients.filter (·.address ≠ "")

/-- What a call waits for. -/
inductive Phase
  | loading
  | patching
  | clearingItems (items : List User)
  | insertingItems (item : User) (rest : List User)
  | clearingClients (clients : List Rule)
  | insertingClients (client : Rule) (rest : List Rule)
  | auditing
  | fetching
  | reading
  /-- `openssl` for the first user left, or the file where none is left -/
  | hashing (left : List User) (lines : List String)
  | publishing
  | ended
  | rejected
deriving DecidableEq

namespace Payload

variable (p : Payload)

def afterItems : Phase :=
  match p.clients with
  | some clients => .clearingClients clients
  | none => .auditing

def afterPatch : Phase :=
  match p.items with
  | some items => .clearingItems items
  | none => p.afterItems

def insertItems : List User → Phase
  | [] => p.afterItems
  | item :: rest => .insertingItems item rest

end Payload

def insertClients : List Rule → Phase
  | [] => .auditing
  | client :: rest => .insertingClients client rest

/-- A call, the rows that its first query on them found, and whether its queries have changed them.
-/
structure Call where
  payload : Payload
  phase : Phase
  found : Option Rows
  touched : Bool

structure State where
  rows : Rows
  file : Option (List String)
  calls : ℕ → Option Call
  count : ℕ

inductive Act
  | update (payload : Payload)
  /-- the query has its answer -/
  | advance (k : ℕ)
  | hash (k : ℕ) (salt : String)
  | fail (k : ℕ)

namespace State

variable (s : State) (k : ℕ) (c : Call)

def go (phase : Phase) : State :=
  { s with calls := Function.update s.calls k (some { c with phase }) }

/-- A query on the rows. -/
def query (rows : Rows) (phase : Phase) : State :=
  { s with
    rows
    calls := Function.update s.calls k (some
      { c with phase, found := some (c.found.getD s.rows), touched := c.touched || rows ≠ s.rows })
        }

end State

def advance (s : State) (k : ℕ) (c : Call) : Option State :=
  match c.phase with
  | .loading => some (s.go k c (if c.payload.patches then .patching else c.payload.afterPatch))
  | .patching => some (s.go k c c.payload.afterPatch)
  | .clearingItems items =>
    some (s.query k c { s.rows with users := kept items s.rows.users }
        (c.payload.insertItems (withPassword items)))
  | .insertingItems item rest =>
    some (s.query k c { s.rows with users := s.rows.users ++ [item] } (c.payload.insertItems rest))
  | .clearingClients clients =>
    some (s.query k c { s.rows with rules := [] } (insertClients (withAddress clients)))
  | .insertingClients client rest =>
    some (s.query k c { s.rows with rules := s.rows.rules ++ [client] } (insertClients rest))
  | .auditing => some (s.go k c .fetching)
  | .fetching => some (s.go k c .reading)
  | .reading => some (s.query k c s.rows (.hashing (withPassword s.rows.users) []))
  | .hashing [] lines => some { s.go k c .publishing with file := some lines }
  | .publishing => some (s.go k c .ended)
  | .hashing (_ :: _) _ | .ended | .rejected => none

def Phase.over : Phase → Bool
  | ended | rejected => true
  | _ => false

/-- The file is not written yet. -/
def Phase.working : Phase → Bool
  | publishing | ended | rejected => false
  | _ => true

variable (apr1 : String → String → String)

/-- The line of a user; `apr1` is what `openssl passwd` makes of a salt and a password. -/
def line (salt : String) (u : User) : String := u.username ++ ":" ++ apr1 salt u.password

def step (s : State) : Act → Option State
  | .update payload => some
    { s with
      calls := Function.update s.calls s.count
        (some ⟨payload, if validUsernames payload.items then .loading else .rejected, none, false⟩)
      count := s.count + 1 }
  | .advance k => (s.calls k).bind (advance s k)
  | .hash k salt => (s.calls k).bind fun c =>
    match c.phase with
    | .hashing (u :: left) lines => some (s.go k c (.hashing left (lines ++ [line apr1 salt u])))
    | _ => none
  | .fail k => (s.calls k).bind fun c => if c.phase.over then none else some (s.go k c .rejected)

def Step (s : State) (a : Act) (t : State) : Prop := step apr1 s a = some t

/-! What should come out. -/

/-- The users of a payload over those that were there: the ones with a password have it, the others
keep theirs. -/
structure IsResult (items stored users : List User) : Prop where
  distinct : (users.map User.username).Nodup
  mem_iff : ∀ u, u ∈ users ↔ u ∈ items ∧ u.password ≠ "" ∨ u ∈ stored ∧ ⟨u.username, ""⟩ ∈ items

/-- One line for each user with a password. -/
def Lines (lines : List String) (users : List User) : Prop :=
  List.Forall₂ (fun l u => ∃ salt, l = line apr1 salt u) lines (withPassword users)

/-- The rows before the calls; no user is there twice. -/
structure Start extends Rows where
  distinct : (users.map User.username).Nodup

variable (start : Start)

def RulesOf (s : State) (rules : List Rule) : Prop :=
  rules = start.rules ∨ ∃ k c clients, s.calls k = some c ∧ c.payload.clients = some clients ∧
    rules = withAddress clients

def UsersOf (s : State) (users : List User) : Prop :=
  users = start.users ∨ ∃ k c items found, s.calls k = some c ∧ c.payload.items = some items ∧
    c.found = some found ∧
    IsResult items found.users users

/-- When all calls have ended the rules, the users and the file are as before or those of one call;
and a call that was rejected has changed no row. -/
def AllOrNothing (s : State) : Prop :=
  ((∀ k c, s.calls k = some c → c.phase.over) → RulesOf start s s.rows.rules ∧
    UsersOf start s s.rows.users ∧
    ∀ lines, s.file = some lines → Lines apr1 lines s.rows.users) ∧
  ∀ k c, s.calls k = some c → c.phase = .rejected → c.touched = false

/-- From its first query on the rows until it has written the file. -/
def Call.busy (c : Call) : Bool := c.found.isSome && c.phase.working

/-- The next step of a call is its first query on the rows. -/
def Call.enters (c : Call) : Bool :=
  c.found.isNone && match c.phase with
    | .clearingItems _ | .clearingClients _ | .reading => true
    | _ => false

/-- A call begins to work on the rows when no other is at it, and none fails that has changed them.
-/
def OneAtATime (s : State) : Act → Prop
  | .advance k => ∀ c, s.calls k = some c → c.enters → ∀ j d, s.calls j = some d → ¬ d.busy
  | .fail k => ∀ c, s.calls k = some c → c.touched = false
  | _ => True

/-- What the delete and the inserts of a call make of the users. -/
def Payload.newUsers (p : Payload) (users : List User) : List User :=
  match p.items with
  | some items => kept items users ++ withPassword items
  | none => users

def Payload.newRules (p : Payload) (rules : List Rule) : List Rule :=
  match p.clients with
  | some clients => withAddress clients
  | none => rules

def Payload.apply (p : Payload) (f : Rows) : Rows := ⟨p.newUsers f.users, p.newRules f.rules⟩

/-- No call yet, and no file written. -/
def initial : State := ⟨start.toRows, none, fun _ => none, 0⟩

variable {apr1 start} {s t u : State} {a : Act} {acts : List Act} {k j : ℕ} {c c' d : Call}
  {p : Payload} {f rows : Rows}
  {items stored users : List User} {rules : List Rule} {lines : List String}

/-! The result of a call. -/

theorem mem_itemsToKeep {name : String} : name ∈ itemsToKeep items ↔ ⟨name, ""⟩ ∈ items := by
  constructor
  · intro h
    obtain ⟨item, hitem, rfl⟩ := List.mem_map.mp h
    obtain ⟨hmem, hempty⟩ := List.mem_filter.mp hitem
    rwa [← of_decide_eq_true hempty]
  · intro h
    exact List.mem_map.mpr ⟨_, List.mem_filter.mpr ⟨h, decide_eq_true rfl⟩, rfl⟩

theorem isResult (hitems : (items.map User.username).Nodup)
    (hstored : (stored.map User.username).Nodup) :
    IsResult items stored (kept items stored ++ withPassword items) := by
  constructor
  case distinct =>
    rw [List.map_append]
    refine List.Nodup.append ?_ ?_ ?_
    · exact hstored.sublist (List.filter_sublist.map _)
    · exact hitems.sublist (List.filter_sublist.map _)
    · intro name hkept hadded
      obtain ⟨old, hold, rfl⟩ := List.mem_map.mp hkept
      obtain ⟨new, hnew, hname⟩ := List.mem_map.mp hadded
      obtain ⟨hnew, hpassword⟩ := List.mem_filter.mp hnew
      have hempty := mem_itemsToKeep.mp (of_decide_eq_true (List.mem_filter.mp hold).2)
      have hsame : new = ⟨old.username, ""⟩ := List.inj_on_of_nodup_map hitems hnew hempty hname
      rw [hsame] at hpassword
      exact absurd rfl (of_decide_eq_true hpassword)
  case mem_iff =>
    intro u
    rw [List.mem_append, kept, withPassword, List.mem_filter, List.mem_filter, decide_eq_true_iff,
      decide_eq_true_iff,
      mem_itemsToKeep, or_comm]

/-! Rows that would do as the last ones. -/

structure Good (apr1 : String → String → String) (start : Start) (s : State) (rows : Rows) :
    Prop where
  rules : RulesOf start s rows.rules
  users : UsersOf start s rows.users
  distinct : (rows.users.map User.username).Nodup
  file : ∀ lines, s.file = some lines → Lines apr1 lines rows.users

/-- The calls stay, with their payloads and what they found. -/
def Stay (s t : State) : Prop := ∀ k c, s.calls k = some c →
  ∃ c', t.calls k = some c' ∧ c'.payload = c.payload ∧ ∀ f, c.found = some f → c'.found = some f

theorem RulesOf.stay (h : RulesOf start s rules) (hst : Stay s t) : RulesOf start t rules := by
  rcases h with h | ⟨k, c, clients, hk, hclients, hrules⟩
  · exact .inl h
  · obtain ⟨c', hk', hpayload, -⟩ := hst k c hk
    exact .inr ⟨k, c', clients, hk', hpayload ▸ hclients, hrules⟩

theorem UsersOf.stay (h : UsersOf start s users) (hst : Stay s t) : UsersOf start t users := by
  rcases h with h | ⟨k, c, items, found, hk, hitems, hfound, hresult⟩
  · exact .inl h
  · obtain ⟨c', hk', hpayload, hfound'⟩ := hst k c hk
    exact .inr ⟨k, c', items, found, hk', hpayload ▸ hitems, hfound' found hfound, hresult⟩

theorem Good.stay (h : Good apr1 start s rows) (hst : Stay s t) (hfile : t.file = s.file) :
    Good apr1 start t rows :=
  ⟨h.rules.stay hst, h.users.stay hst, h.distinct, hfile ▸ h.file⟩

/-- A call that is through with the rows it found leaves good ones, once it has written the file. -/
theorem good_of_payload (h : Good apr1 start s f) (hst : Stay s t) (hk : t.calls k = some c)
    (hfound : c.found = some f)
    (hfile : ∀ lines, t.file = some lines → Lines apr1 lines (c.payload.newUsers f.users)) :
    Good apr1 start t (c.payload.apply f) := by
  constructor
  case rules =>
    change RulesOf start t (c.payload.newRules f.rules)
    cases hclients : c.payload.clients with
    | none =>
      rw [Payload.newRules, hclients]
      exact h.rules.stay hst
    | some clients =>
      rw [Payload.newRules, hclients]
      exact .inr ⟨k, c, clients, hk, hclients, rfl⟩
  case users =>
    change UsersOf start t (c.payload.newUsers f.users)
    cases hitems : c.payload.items with
    | none =>
      rw [Payload.newUsers, hitems]
      exact h.users.stay hst
    | some items =>
      rw [Payload.newUsers, hitems]
      exact .inr ⟨k, c, items, f, hk, hitems, hfound,
        isResult (c.payload.distinct items hitems) h.distinct⟩
  case distinct =>
    change ((c.payload.newUsers f.users).map User.username).Nodup
    cases hitems : c.payload.items with
    | none =>
      rw [Payload.newUsers, hitems]
      exact h.distinct
    | some items =>
      rw [Payload.newUsers, hitems]
      exact (isResult (c.payload.distinct items hitems) h.distinct).distinct
  case file => exact hfile

/-! How far a call is. -/

/-- Before its first query on the rows a call stands at a step that its payload leads to. -/
def Unstarted (c : Call) : Prop :=
  match c.phase with
  | .clearingItems items => c.payload.items = some items
  | .clearingClients clients => c.payload.items = none ∧ c.payload.clients = some clients
  | .auditing | .fetching | .reading => c.payload.items = none ∧ c.payload.clients = none
  | .loading | .patching | .rejected => True
  | _ => False

/-- What a call has made so far of the rows it found. -/
def Progress (apr1 : String → String → String) (c : Call) (f rows : Rows) : Prop :=
  match c.phase with
  | .insertingItems item rest =>
    ∃ items done, c.payload.items = some items ∧ withPassword items = done ++ item :: rest ∧
    rows = ⟨kept items f.users ++ done, f.rules⟩
  | .clearingClients clients =>
    c.payload.clients = some clients ∧ rows = ⟨c.payload.newUsers f.users, f.rules⟩
  | .insertingClients client rest => ∃ clients done, c.payload.clients = some clients ∧
    withAddress clients = done ++ client :: rest ∧ rows = ⟨c.payload.newUsers f.users, done⟩
  | .auditing | .fetching | .reading => rows = c.payload.apply f
  | .hashing left lines =>
    rows = c.payload.apply f ∧ ∃ done, withPassword rows.users = done ++ left ∧
    List.Forall₂ (fun l u => ∃ salt, l = line apr1 salt u) lines done
  | _ => False

structure Invariant (apr1 : String → String → String) (start : Start) (s : State) : Prop where
  fresh : ∀ k, s.count ≤ k → s.calls k = none
  unstarted : ∀ k c, s.calls k = some c → c.found = none → Unstarted c ∧ c.touched = false
  alone : ∀ k j c d, s.calls k = some c → s.calls j = some d → c.busy → d.busy → k = j
  idle : (∀ k c, s.calls k = some c → ¬ c.busy) → Good apr1 start s s.rows
  busy : ∀ k c f, s.calls k = some c → c.busy → c.found = some f →
    Good apr1 start s f ∧ Progress apr1 c f s.rows ∧ (c.touched = false → s.rows = f)
  rejected : ∀ k c, s.calls k = some c → c.phase = .rejected → c.touched = false

theorem not_busy_of_over (h : c.phase.over = true) : ¬ c.busy := by
  intro hbusy
  have hworking := (Bool.and_eq_true_iff.mp hbusy).2
  cases hphase : c.phase <;> simp_all [Phase.over, Phase.working]

theorem phase_of_busy (h : c.busy) : c.phase ≠ .rejected := by
  intro hphase
  exact not_busy_of_over (congrArg Phase.over hphase) h

theorem Invariant.allOrNothing (h : Invariant apr1 start s) : AllOrNothing apr1 start s := by
  refine ⟨fun hover => ?_, h.rejected⟩
  have hgood := h.idle fun k c hk => not_busy_of_over (hover k c hk)
  exact ⟨hgood.rules, hgood.users, hgood.file⟩

theorem invariant_initial : Invariant apr1 start (initial start) where
  fresh _ _ := rfl
  unstarted _ _ h := nomatch h
  alone _ _ _ _ h := nomatch h
  idle _ := ⟨.inl rfl, .inl rfl, start.distinct, nofun⟩
  busy _ _ _ h := nomatch h
  rejected _ _ h := nomatch h

/-! One call changes. -/

/-- The call `k` is now `c'`, and all others are as before. -/
structure Moves (s t : State) (k : ℕ) (c c' : Call) : Prop where
  before : s.calls k = some c
  calls : t.calls = Function.update s.calls k (some c')
  count : t.count = s.count
  payload : c'.payload = c.payload
  found : ∀ f, c.found = some f → c'.found = some f

namespace Moves

variable (h : Moves s t k c c')

include h

theorem after : t.calls k = some c' := h.calls ▸ Function.update_self ..

theorem of_ne (hj : j ≠ k) : t.calls j = s.calls j := h.calls ▸ Function.update_of_ne hj ..

theorem cases_of (hd : t.calls j = some d) : j = k ∧ d = c' ∨ j ≠ k ∧ s.calls j = some d := by
  by_cases hj : j = k
  · subst hj
    exact .inl ⟨rfl, Option.some.inj (hd.symm.trans h.after)⟩
  · exact .inr ⟨hj, h.of_ne hj ▸ hd⟩

theorem stay : Stay s t := by
  intro j d hd
  by_cases hj : j = k
  · subst hj
    obtain rfl := Option.some.inj (h.before.symm.trans hd)
    exact ⟨c', h.after, h.payload, h.found⟩
  · exact ⟨d, (h.of_ne hj).trans hd, rfl, fun _ => id⟩

theorem fresh (hi : Invariant apr1 start s) (hj : t.count ≤ j) : t.calls j = none := by
  have hnone := hi.fresh j (h.count ▸ hj)
  have hne : j ≠ k := by
    rintro rfl
    exact nomatch h.before.symm.trans hnone
  exact (h.of_ne hne).trans hnone

/-- A call that is not at work takes a step that touches nothing. -/
theorem quiet (hi : Invariant apr1 start s) (hrows : t.rows = s.rows) (hfile : t.file = s.file)
    (hc : ¬ c.busy)
    (hc' : ¬ c'.busy) (hunstarted : c'.found = none → Unstarted c' ∧ c'.touched = false)
    (hrejected : c'.phase = .rejected → c'.touched = false) : Invariant apr1 start t := by
  have hwork : ∀ {j d}, t.calls j = some d → d.busy → s.calls j = some d := by
    intro j d hd hbusy
    rcases h.cases_of hd with ⟨-, rfl⟩ | ⟨-, hold⟩
    · exact absurd hbusy hc'
    · exact hold
  constructor
  case fresh => exact fun j hj => h.fresh hi hj
  case unstarted =>
    intro j d hd hfound
    rcases h.cases_of hd with ⟨-, rfl⟩ | ⟨-, hold⟩
    · exact hunstarted hfound
    · exact hi.unstarted j d hold hfound
  case alone =>
    intro i j d d' hd hd' hbusy hbusy'
    exact hi.alone i j d d' (hwork hd hbusy) (hwork hd' hbusy') hbusy hbusy'
  case idle =>
    intro hnone
    refine hrows ▸ (hi.idle fun j d hd => ?_).stay h.stay hfile
    by_cases hj : j = k
    · subst hj
      obtain rfl := Option.some.inj (h.before.symm.trans hd)
      exact hc
    · exact hnone j d ((h.of_ne hj).trans hd)
  case busy =>
    intro j d f hd hbusy hfound
    obtain ⟨hgood, hprogress, hsame⟩ := hi.busy j d f (hwork hd hbusy) hbusy hfound
    exact ⟨hgood.stay h.stay hfile, hrows ▸ hprogress, hrows ▸ hsame⟩
  case rejected =>
    intro j d hd hphase
    rcases h.cases_of hd with ⟨-, rfl⟩ | ⟨-, hold⟩
    · exact hrejected hphase
    · exact hi.rejected j d hold hphase

/-- The only call at work goes on or stops. -/
theorem alone (hi : Invariant apr1 start s) (hothers : ∀ j d, j ≠ k → s.calls j = some d → ¬ d.busy)
    (hfound : c'.found = some f)
    (hwork : c'.busy → Good apr1 start t f ∧ Progress apr1 c' f t.rows ∧
      (c'.touched = false → t.rows = f))
    (hidle : ¬ c'.busy → Good apr1 start t t.rows)
    (hrejected : c'.phase = .rejected → c'.touched = false) :
    Invariant apr1 start t := by
  have honly : ∀ {j d}, t.calls j = some d → d.busy → j = k ∧ d = c' := by
    intro j d hd hbusy
    rcases h.cases_of hd with hnew | ⟨hne, hold⟩
    · exact hnew
    · exact absurd hbusy (hothers j d hne hold)
  constructor
  case fresh => exact fun j hj => h.fresh hi hj
  case unstarted =>
    intro j d hd hnone
    rcases h.cases_of hd with ⟨-, rfl⟩ | ⟨-, hold⟩
    · exact nomatch hfound.symm.trans hnone
    · exact hi.unstarted j d hold hnone
  case alone =>
    intro i j d d' hd hd' hbusy hbusy'
    exact (honly hd hbusy).1.trans (honly hd' hbusy').1.symm
  case idle => exact fun hnone => hidle (hnone k c' h.after)
  case busy =>
    intro j d f' hd hbusy hfound'
    obtain ⟨-, rfl⟩ := honly hd hbusy
    obtain rfl := Option.some.inj (hfound.symm.trans hfound')
    exact hwork hbusy
  case rejected =>
    intro j d hd hphase
    rcases h.cases_of hd with ⟨-, rfl⟩ | ⟨-, hold⟩
    · exact hrejected hphase
    · exact hi.rejected j d hold hphase

end Moves

theorem moves_go {phase : Phase} (hk : s.calls k = some c) :
    Moves s (s.go k c phase) k c { c with phase } :=
  ⟨hk, rfl, rfl, rfl, fun _ => id⟩

theorem moves_query {phase : Phase} (hk : s.calls k = some c) : Moves s (s.query k c rows phase) k c
    { c with
      phase, found := some (c.found.getD s.rows), touched := c.touched || rows ≠ s.rows } := by
  refine ⟨hk, rfl, rfl, rfl, fun f hf => ?_⟩
  rw [hf]
  rfl

/-- The others do not work when one does. -/
theorem Invariant.others (hi : Invariant apr1 start s) (hk : s.calls k = some c) (hc : c.busy) :
    ∀ j d, j ≠ k → s.calls j = some d → ¬ d.busy :=
  fun j d hne hd hbusy => hne (hi.alone j k d c hd hk hbusy hc)

/-- A query of a call on the rows: its first, when none is at work, or a later one. -/
theorem invariant_query {phase : Phase} (hi : Invariant apr1 start s) (hk : s.calls k = some c)
    (hworks : c.busy ∨ c.found = none ∧ ∀ j d, s.calls j = some d → ¬ d.busy)
    (hbusy : { c with phase, found := some s.rows : Call }.busy)
    (hprogress : ∀ f, c.found.getD s.rows = f → Progress apr1 { c with phase } f rows) :
    Invariant apr1 start (s.query k c rows phase) := by
  have hm : Moves s (s.query k c rows phase) k c _ := moves_query hk
  have hfacts : (∀ j d, j ≠ k → s.calls j = some d → ¬ d.busy) ∧
    Good apr1 start s (c.found.getD s.rows) ∧
      (c.touched = false → s.rows = c.found.getD s.rows) := by
    rcases hworks with hc | ⟨hfound, hnone⟩
    · obtain ⟨f, hf⟩ := Option.isSome_iff_exists.mp (Bool.and_eq_true_iff.mp hc).1
      obtain ⟨hgood, -, hsame⟩ := hi.busy k c f hk hc hf
      rw [hf]
      exact ⟨hi.others hk hc, hgood, hsame⟩
    · rw [hfound]
      exact ⟨fun j d _ hd => hnone j d hd, hi.idle hnone, fun _ => rfl⟩
  obtain ⟨hothers, hgood, hsame⟩ := hfacts
  refine hm.alone hi hothers rfl ?_ (fun hnot => absurd hbusy hnot)
    (fun hphase => absurd hphase (phase_of_busy hbusy))
  intro _
  refine ⟨hgood.stay hm.stay rfl, hprogress _ rfl, fun huntouched => ?_⟩
  obtain ⟨hbefore, hrows⟩ := Bool.or_eq_false_iff.mp huntouched
  have heq : rows = s.rows := not_not.mp (of_decide_eq_false hrows)
  exact heq.trans (hsame hbefore)

/-- A call at work goes on without a query on the rows. -/
theorem invariant_go {phase : Phase} (hi : Invariant apr1 start s) (hk : s.calls k = some c)
    (hc : c.busy)
    (hbusy : { c with phase : Call }.busy)
    (hprogress : ∀ f, Progress apr1 c f s.rows → Progress apr1 { c with phase } f s.rows) :
    Invariant apr1 start (s.go k c phase) := by
  have hm : Moves s (s.go k c phase) k c _ := moves_go hk
  obtain ⟨f, hf⟩ := Option.isSome_iff_exists.mp (Bool.and_eq_true_iff.mp hc).1
  obtain ⟨hgood, hold, hsame⟩ := hi.busy k c f hk hc hf
  refine hm.alone hi (hi.others hk hc) hf ?_ (fun hnot => absurd hbusy hnot)
    (fun hphase => absurd hphase (phase_of_busy hbusy))
  exact fun _ => ⟨hgood.stay hm.stay rfl, hprogress f hold, hsame⟩

/-- A call that has not queried the rows yet goes on. -/
theorem invariant_before {phase : Phase} (hi : Invariant apr1 start s) (hk : s.calls k = some c)
    (hfound : c.found = none)
    (hunstarted : Unstarted { c with phase }) : Invariant apr1 start (s.go k c phase) := by
  have htouched := (hi.unstarted k c hk hfound).2
  have hidle : ∀ phase, ¬ { c with phase : Call }.busy := by
    intro phase hbusy
    have hsome : c.found.isSome = true := (Bool.and_eq_true_iff.mp hbusy).1
    rw [hfound] at hsome
    cases hsome
  exact (moves_go hk).quiet hi rfl rfl (hidle c.phase) (hidle phase)
    (fun _ => ⟨hunstarted, htouched⟩) (fun _ => htouched)

/-- A call that has not written the file has not queried the rows yet, or it is at work. -/
theorem Invariant.stage (hi : Invariant apr1 start s) (hk : s.calls k = some c)
    (hphase : c.phase.working = true) :
    c.found = none ∧ Unstarted c ∨ c.busy ∧ ∃ f, c.found = some f ∧ Progress apr1 c f s.rows := by
  cases hfound : c.found with
  | none => exact .inl ⟨rfl, (hi.unstarted k c hk hfound).1⟩
  | some f =>
    have hbusy : c.busy := Bool.and_eq_true_iff.mpr ⟨hfound ▸ rfl, hphase⟩
    exact .inr ⟨hbusy, f, rfl, (hi.busy k c f hk hbusy hfound).2.1⟩

theorem unstarted_afterItems {found : Option Rows} {touched : Bool} (h : p.items = none) :
    Unstarted ⟨p, p.afterItems, found, touched⟩ := by
  cases hclients : p.clients with
  | none =>
    rw [Payload.afterItems, hclients]
    exact ⟨h, hclients⟩
  | some clients =>
    rw [Payload.afterItems, hclients]
    exact ⟨h, hclients⟩

theorem unstarted_afterPatch {found : Option Rows} {touched : Bool} :
    Unstarted ⟨p, p.afterPatch, found, touched⟩ := by
  cases hitems : p.items with
  | none =>
    rw [Payload.afterPatch, hitems]
    exact unstarted_afterItems hitems
  | some items =>
    rw [Payload.afterPatch, hitems]
    exact hitems

theorem progress_afterItems {found : Option Rows} {touched : Bool} :
    Progress apr1 ⟨p, p.afterItems, found, touched⟩ f ⟨p.newUsers f.users, f.rules⟩ := by
  cases hclients : p.clients with
  | none =>
    rw [Payload.afterItems, hclients]
    change Rows.mk _ _ = Rows.mk _ (p.newRules f.rules)
    rw [Payload.newRules, hclients]
  | some clients =>
    rw [Payload.afterItems, hclients]
    exact ⟨hclients, rfl⟩

theorem progress_insertItems {found : Option Rows} {touched : Bool} {done rest : List User}
    (hitems : p.items = some items)
    (hadded : withPassword items = done ++ rest) :
    Progress apr1 ⟨p, p.insertItems rest, found, touched⟩ f ⟨kept items f.users ++ done,
      f.rules⟩ := by
  cases rest with
  | nil =>
    have hall : p.newUsers f.users = kept items f.users ++ done := by
      rw [Payload.newUsers, hitems]
      exact congrArg _ (hadded.trans (List.append_nil done))
    exact hall ▸ progress_afterItems
  | cons item rest => exact ⟨items, done, hitems, hadded, rfl⟩

theorem progress_insertClients {found : Option Rows} {touched : Bool}
    {clients done rest : List Rule}
    (hclients : p.clients = some clients) (hadded : withAddress clients = done ++ rest) :
    Progress apr1 ⟨p, insertClients rest, found, touched⟩ f ⟨p.newUsers f.users, done⟩ := by
  cases rest with
  | nil =>
    change Rows.mk _ done = Rows.mk _ (p.newRules f.rules)
    rw [Payload.newRules, hclients]
    exact congrArg _ (hadded.trans (List.append_nil done)).symm
  | cons client rest => exact ⟨clients, done, hclients, hadded, rfl⟩

theorem busy_afterItems {touched : Bool} : (⟨p, p.afterItems, some f, touched⟩ : Call).busy := by
  cases hclients : p.clients with
  | none =>
    rw [Payload.afterItems, hclients]
    rfl
  | some clients =>
    rw [Payload.afterItems, hclients]
    rfl

theorem busy_insertItems {touched : Bool} {rest : List User} :
    (⟨p, p.insertItems rest, some f, touched⟩ : Call).busy := by
  cases rest with
  | nil => exact busy_afterItems
  | cons item rest => rfl

theorem busy_insertClients {touched : Bool} {rest : List Rule} :
    (⟨p, insertClients rest, some f, touched⟩ : Call).busy := by
  cases rest with
  | nil => rfl
  | cons client rest => rfl

theorem apply_of_none (hitems : p.items = none) (hclients : p.clients = none) : p.apply f = f := by
  rw [Payload.apply, Payload.newUsers, Payload.newRules, hitems, hclients]

/-! The steps. -/

variable {phase : Phase} {found : Option Rows} {touched : Bool}

/-- The first query on the rows deletes users. -/
theorem invariant_clearItems (hi : Invariant apr1 start s)
    (hk : s.calls k = some ⟨p, .clearingItems items, found, touched⟩)
    (hok : found = none → ∀ j d, s.calls j = some d → ¬ d.busy) :
    Invariant apr1 start (s.query k ⟨p, .clearingItems items, found, touched⟩
      { s.rows with users := kept items s.rows.users } (p.insertItems (withPassword items))) := by
  rcases hi.stage hk rfl with ⟨hfound, hitems⟩ | ⟨-, f, -, hprogress⟩
  · obtain rfl : found = none := hfound
    refine invariant_query hi hk (.inr ⟨rfl, hok rfl⟩) busy_insertItems ?_
    rintro f rfl
    have hrows : Rows.mk (kept items s.rows.users ++ []) s.rows.rules =
        ⟨kept items s.rows.users, s.rows.rules⟩ := by
      rw [List.append_nil]
    exact hrows ▸ progress_insertItems hitems rfl
  · cases hprogress

theorem invariant_insertItem {item : User} {rest : List User} (hi : Invariant apr1 start s)
    (hk : s.calls k = some ⟨p, .insertingItems item rest, found, touched⟩) :
    Invariant apr1 start (s.query k ⟨p, .insertingItems item rest, found, touched⟩
      { s.rows with users := s.rows.users ++ [item] } (p.insertItems rest)) := by
  rcases hi.stage hk rfl with ⟨-, hunstarted⟩
    | ⟨hbusy, f, hfound, items, done, hitems, hadded, hrows⟩
  · cases hunstarted
  · obtain rfl : found = some f := hfound
    refine invariant_query hi hk (.inl hbusy) busy_insertItems ?_
    rintro f' rfl
    have hnext : Rows.mk (kept items f.users ++ (done ++ [item])) f.rules =
        { s.rows with users := s.rows.users ++ [item] } := by
      rw [hrows, List.append_assoc]
    refine hnext ▸ progress_insertItems hitems ?_
    rw [hadded, List.append_assoc]
    rfl

/-- Without users in the payload the first query on the rows deletes the rules. -/
theorem invariant_clearClients {clients : List Rule} (hi : Invariant apr1 start s)
    (hk : s.calls k = some ⟨p, .clearingClients clients, found, touched⟩)
    (hok : found = none → ∀ j d, s.calls j = some d → ¬ d.busy) :
    Invariant apr1 start (s.query k ⟨p, .clearingClients clients, found, touched⟩
      { s.rows with rules := [] } (insertClients (withAddress clients))) := by
  rcases hi.stage hk rfl with ⟨hfound, hitems, hclients⟩ | ⟨hbusy, f, hfound, hclients, hrows⟩
  · obtain rfl : found = none := hfound
    refine invariant_query hi hk (.inr ⟨rfl, hok rfl⟩) busy_insertClients ?_
    rintro f rfl
    have hrows : Rows.mk (p.newUsers s.rows.users) [] = { s.rows with rules := [] } := by
      rw [Payload.newUsers, show p.items = none from hitems]
    exact hrows ▸ progress_insertClients hclients rfl
  · obtain rfl : found = some f := hfound
    refine invariant_query hi hk (.inl hbusy) busy_insertClients ?_
    rintro f' rfl
    have hnext : Rows.mk (p.newUsers f.users) [] = { s.rows with rules := [] } := by
      rw [hrows]
    exact hnext ▸ progress_insertClients hclients rfl

theorem invariant_insertClient {client : Rule} {rest : List Rule} (hi : Invariant apr1 start s)
    (hk : s.calls k = some ⟨p, .insertingClients client rest, found, touched⟩) :
    Invariant apr1 start (s.query k ⟨p, .insertingClients client rest, found, touched⟩
      { s.rows with rules := s.rows.rules ++ [client] } (insertClients rest)) := by
  rcases hi.stage hk rfl with ⟨-, hunstarted⟩
    | ⟨hbusy, f, hfound, clients, done, hclients, hadded, hrows⟩
  · cases hunstarted
  · obtain rfl : found = some f := hfound
    refine invariant_query hi hk (.inl hbusy) busy_insertClients ?_
    rintro f' rfl
    have hnext : Rows.mk (p.newUsers f.users) (done ++ [client]) =
        { s.rows with rules := s.rows.rules ++ [client] } := by
      rw [hrows]
    refine hnext ▸ progress_insertClients hclients ?_
    rw [hadded, List.append_assoc]
    rfl

/-- A call that only renames the list first queries the rows when it reads them for the file. -/
theorem invariant_read (hi : Invariant apr1 start s)
    (hk : s.calls k = some ⟨p, .reading, found, touched⟩)
    (hok : found = none → ∀ j d, s.calls j = some d → ¬ d.busy) :
    Invariant apr1 start
      (s.query k ⟨p, .reading, found, touched⟩ s.rows
        (.hashing (withPassword s.rows.users) [])) := by
  rcases hi.stage hk rfl with ⟨hfound, hitems, hclients⟩ | ⟨hbusy, f, hfound, hrows⟩
  · obtain rfl : found = none := hfound
    refine invariant_query hi hk (.inr ⟨rfl, hok rfl⟩) rfl ?_
    rintro f rfl
    exact ⟨(apply_of_none hitems hclients).symm, [], rfl, .nil⟩
  · obtain rfl : found = some f := hfound
    refine invariant_query hi hk (.inl hbusy) rfl ?_
    rintro f' rfl
    exact ⟨hrows, [], rfl, .nil⟩

theorem invariant_hash {salt : String} {left : List User} {u : User} (hi : Invariant apr1 start s)
    (hk : s.calls k = some ⟨p, .hashing (u :: left) lines, found, touched⟩) :
    Invariant apr1 start (s.go k ⟨p, .hashing (u :: left) lines, found, touched⟩
      (.hashing left (lines ++ [line apr1 salt u]))) := by
  rcases hi.stage hk rfl with ⟨-, hunstarted⟩ | ⟨hbusy, -⟩
  · cases hunstarted
  · refine invariant_go hi hk hbusy hbusy fun f hprogress => ?_
    obtain ⟨hrows, done, hdone, hlines⟩ := hprogress
    refine ⟨hrows, done ++ [u], ?_, ?_⟩
    · rw [hdone, List.append_assoc]
      rfl
    · exact List.rel_append hlines (.cons ⟨salt, rfl⟩ .nil)

/-- The file has a line for each user of the rows, and nothing has changed them since they were
read. -/
theorem invariant_writeFile (hi : Invariant apr1 start s)
    (hk : s.calls k = some ⟨p, .hashing [] lines, found, touched⟩) :
    Invariant apr1 start
      { s.go k ⟨p, .hashing [] lines, found, touched⟩ .publishing with file := some lines } := by
  rcases hi.stage hk rfl with ⟨-, hunstarted⟩ | ⟨hbusy, f, hfound, hrows, done, hdone, hlines⟩
  · cases hunstarted
  · obtain rfl : found = some f := hfound
    have hm : Moves s
      { s.go k ⟨p, .hashing [] lines, some f, touched⟩ .publishing with file := some lines } k
        ⟨p, .hashing [] lines, some f, touched⟩ ⟨p, .publishing, some f, touched⟩ :=
          ⟨hk, rfl, rfl, rfl, fun _ => id⟩
    refine hm.alone hi (hi.others hk hbusy) rfl nofun (fun _ => ?_) nofun
    change Good apr1 start _ s.rows
    rw [hrows]
    refine good_of_payload (c := ⟨p, .publishing, some f, touched⟩) (hi.busy k _ f hk hbusy rfl).1
      hm.stay hm.after rfl ?_
    rintro lines' hfile
    obtain rfl := Option.some.inj hfile
    change List.Forall₂ _ lines (withPassword (p.newUsers f.users))
    have hread : withPassword (p.newUsers f.users) = done := by
      rw [hrows, List.append_nil] at hdone
      exact hdone
    rw [hread]
    exact hlines

theorem invariant_publish (hi : Invariant apr1 start s)
    (hk : s.calls k = some ⟨p, .publishing, found, touched⟩) :
    Invariant apr1 start (s.go k ⟨p, .publishing, found, touched⟩ .ended) := by
  have hidle : ∀ phase : Phase, phase.working = false →
      ¬ (⟨p, phase, found, touched⟩ : Call).busy := by
    intro phase hphase hbusy
    exact absurd ((Bool.and_eq_true_iff.mp hbusy).2.symm.trans hphase) nofun
  refine (moves_go hk).quiet hi rfl rfl (hidle _ rfl) (hidle _ rfl) (fun hfound => ?_) nofun
  exact nomatch (hi.unstarted k _ hk hfound).1

theorem invariant_advance (hi : Invariant apr1 start s) (hk : s.calls k = some c)
    (hok : c.enters → ∀ j d, s.calls j = some d → ¬ d.busy) (hs : advance s k c = some t) :
    Invariant apr1 start t := by
  obtain ⟨p, phase, found, touched⟩ := c
  cases phase with
  | loading =>
    obtain rfl := Option.some.inj hs
    rcases hi.stage hk rfl with ⟨hfound, -⟩ | ⟨-, f, -, hprogress⟩
    · refine invariant_before hi hk hfound ?_
      cases p.patches with
      | true => trivial
      | false => exact unstarted_afterPatch
    · cases hprogress
  | patching =>
    obtain rfl := Option.some.inj hs
    rcases hi.stage hk rfl with ⟨hfound, -⟩ | ⟨-, f, -, hprogress⟩
    · exact invariant_before hi hk hfound unstarted_afterPatch
    · cases hprogress
  | clearingItems items =>
    obtain rfl := Option.some.inj hs
    exact invariant_clearItems hi hk fun hfound => hok (hfound ▸ rfl)
  | insertingItems item rest =>
    obtain rfl := Option.some.inj hs
    exact invariant_insertItem hi hk
  | clearingClients clients =>
    obtain rfl := Option.some.inj hs
    exact invariant_clearClients hi hk fun hfound => hok (hfound ▸ rfl)
  | insertingClients client rest =>
    obtain rfl := Option.some.inj hs
    exact invariant_insertClient hi hk
  | auditing | fetching =>
    obtain rfl := Option.some.inj hs
    rcases hi.stage hk rfl with ⟨hfound, hunstarted⟩ | ⟨hbusy, -⟩
    · exact invariant_before hi hk hfound hunstarted
    · exact invariant_go hi hk hbusy hbusy fun _ => id
  | reading =>
    obtain rfl := Option.some.inj hs
    exact invariant_read hi hk fun hfound => hok (hfound ▸ rfl)
  | hashing left lines =>
    cases left with
    | nil =>
      obtain rfl := Option.some.inj hs
      exact invariant_writeFile hi hk
    | cons u left => cases hs
  | publishing =>
    obtain rfl := Option.some.inj hs
    exact invariant_publish hi hk
  | ended | rejected => cases hs

/-- A call that fails before it has changed a row. -/
theorem invariant_fail (hi : Invariant apr1 start s) (hk : s.calls k = some c)
    (htouched : c.touched = false) :
    Invariant apr1 start (s.go k c .rejected) := by
  have hm : Moves s (s.go k c .rejected) k c _ := moves_go hk
  have hidle : ¬ { c with phase := .rejected : Call }.busy := not_busy_of_over rfl
  by_cases hc : c.busy
  · obtain ⟨f, hf⟩ := Option.isSome_iff_exists.mp (Bool.and_eq_true_iff.mp hc).1
    obtain ⟨hgood, -, hsame⟩ := hi.busy k c f hk hc hf
    refine hm.alone hi (hi.others hk hc) hf (fun hbusy => absurd hbusy hidle) (fun _ => ?_) fun _ =>
      htouched
    change Good apr1 start _ s.rows
    rw [hsame htouched]
    exact hgood.stay hm.stay rfl
  · exact hm.quiet hi rfl rfl hc hidle (fun _ => ⟨trivial, htouched⟩) fun _ => htouched

/-- A call starts; a payload with a bad name is rejected at once. -/
theorem invariant_update (hi : Invariant apr1 start s)
    (hphase : phase = .loading ∨ phase = .rejected) :
    Invariant apr1 start
      { s with
        calls := Function.update s.calls s.count (some ⟨p, phase, none, false⟩),
        count := s.count + 1 } := by
  have hcases : ∀ {j d}, Function.update s.calls s.count (some ⟨p, phase, none, false⟩) j = some d →
      d = ⟨p, phase, none, false⟩ ∨ s.calls j = some d := by
    intro j d hd
    by_cases hj : j = s.count
    · subst hj
      rw [Function.update_self] at hd
      exact .inl (Option.some.inj hd).symm
    · rw [Function.update_of_ne hj] at hd
      exact .inr hd
  have hwork : ∀ {j d}, Function.update s.calls s.count (some ⟨p, phase, none, false⟩) j = some d →
    d.busy →
      s.calls j = some d := by
    intro j d hd hbusy
    rcases hcases hd with rfl | hold
    · cases hbusy
    · exact hold
  have hkept : ∀ {j d}, s.calls j = some d →
      Function.update s.calls s.count (some ⟨p, phase, none, false⟩) j = some d := by
    intro j d hd
    have hne : j ≠ s.count := by
      rintro rfl
      exact nomatch (hi.fresh _ (Nat.le_refl _)).symm.trans hd
    exact (Function.update_of_ne hne ..).trans hd
  have hstay : Stay s
      { s with
        calls := Function.update s.calls s.count (some ⟨p, phase, none, false⟩),
        count := s.count + 1 } :=
    fun j d hd => ⟨d, hkept hd, rfl, fun _ => id⟩
  constructor
  case fresh =>
    intro j hj
    have hlt : s.count < j := hj
    exact (Function.update_of_ne (Nat.ne_of_gt hlt) ..).trans (hi.fresh j (Nat.le_of_lt hlt))
  case unstarted =>
    intro j d hd hfound
    rcases hcases hd with rfl | hold
    · rcases hphase with rfl | rfl
      · exact ⟨trivial, rfl⟩
      · exact ⟨trivial, rfl⟩
    · exact hi.unstarted j d hold hfound
  case alone =>
    intro i j d d' hd hd' hbusy hbusy'
    exact hi.alone i j d d' (hwork hd hbusy) (hwork hd' hbusy') hbusy hbusy'
  case idle => exact fun hnone => (hi.idle fun j d hd => hnone j d (hkept hd)).stay hstay rfl
  case busy =>
    intro j d f hd hbusy hfound
    obtain ⟨hgood, hrest⟩ := hi.busy j d f (hwork hd hbusy) hbusy hfound
    exact ⟨hgood.stay hstay rfl, hrest⟩
  case rejected =>
    intro j d hd hrejected
    rcases hcases hd with rfl | hold
    · rfl
    · exact hi.rejected j d hold hrejected

theorem invariant_step (hs : Step apr1 s a t) (hok : OneAtATime s a) (hi : Invariant apr1 start s) :
    Invariant apr1 start t := by
  cases a with
  | update payload =>
    obtain rfl := Option.some.inj hs
    refine invariant_update hi ?_
    by_cases hvalid : validUsernames payload.items
    · exact .inl (if_pos hvalid)
    · exact .inr (if_neg hvalid)
  | advance k =>
    obtain ⟨c, hk, hs⟩ := Option.bind_eq_some_iff.mp hs
    exact invariant_advance hi hk (hok c hk) hs
  | hash k salt =>
    obtain ⟨c, hk, hs⟩ := Option.bind_eq_some_iff.mp hs
    obtain ⟨p, phase, found, touched⟩ := c
    cases phase with
    | hashing left lines =>
      cases left with
      | nil => cases hs
      | cons u left =>
        obtain rfl := Option.some.inj hs
        exact invariant_hash hi hk
    | _ => cases hs
  | fail k =>
    obtain ⟨c, hk, hs⟩ := Option.bind_eq_some_iff.mp hs
    by_cases hover : c.phase.over
    · rw [if_pos hover] at hs
      cases hs
    · rw [if_neg hover] at hs
      obtain rfl := Option.some.inj hs
      exact invariant_fail hi hk (hok c hk)

/-- In every run whose calls work on the rows one at a time and fail only before they have changed a
row, the updates are all or nothing. -/
theorem allOrNothing_of_run (h : Run (Guarded (Step apr1) OneAtATime) (initial start) acts s) :
    AllOrNothing apr1 start s := by
  have hi : Invariant apr1 start s := by
    refine h.guarded_invariant ?_ invariant_initial
    intro s a t hs hok hi
    exact invariant_step hs hok hi
  exact hi.allOrNothing

/-- A list that one user may use from one address. -/
def office : Start := ⟨⟨[⟨"anna", "secret"⟩], [⟨"10.0.0.1", .allow⟩]⟩, by decide⟩

/-- Another address. -/
def otherAddress : Payload := ⟨false, none, some [⟨"10.0.0.2", .allow⟩], nofun⟩

/-- The salted hash, for a reader. -/
def sampleHash (salt password : String) : String := "$apr1$" ++ salt ++ "$" ++ password

def Only (calls : ℕ → Option Call) (k : ℕ) : Prop := ∀ j d, calls j = some d → j = k

theorem only_update {calls : ℕ → Option Call} {call : Option Call} (h : Only calls k) :
    Only (Function.update calls k call) k := by
  intro j d hd
  by_contra hj
  rw [Function.update_of_ne hj] at hd
  exact hj (h j d hd)

/-- A call without others is never in the way. -/
theorem oneAtATime_of_only (h : Only s.calls k) : OneAtATime s (.advance k) := by
  intro c hk henters j d hd hbusy
  obtain rfl := h j d hd
  obtain rfl := Option.some.inj (hk.symm.trans hd)
  have hnone := Option.isNone_iff_eq_none.mp (Bool.and_eq_true_iff.mp henters).1
  rw [Call.busy, hnone] at hbusy
  cases hbusy

/-- One call, to its end. -/
theorem allOrNothing_of_run_sample :
    ∃ s, AllOrNothing sampleHash office s ∧ s.rows.rules = [⟨"10.0.0.2", .allow⟩] ∧
    s.file = some ["anna:$apr1$x$secret"] := by
  have hnone : Only (initial office).calls 0 := nofun
  obtain ⟨s, hrun, hrules, hfile⟩ : ∃ s, Run (Guarded (Step sampleHash) OneAtATime) (initial office)
      [.update otherAddress, .advance 0, .advance 0, .advance 0, .advance 0, .advance 0, .advance 0,
        .hash 0 "x",
        .advance 0, .advance 0] s ∧ s.rows.rules = [⟨"10.0.0.2", .allow⟩] ∧
          s.file = some ["anna:$apr1$x$secret"] := by
    refine ⟨_, .cons ⟨rfl, trivial⟩ <| .cons ⟨rfl, ?_⟩ <| .cons ⟨rfl, ?_⟩ <| .cons ⟨rfl, ?_⟩ <|
      .cons ⟨rfl, ?_⟩ <|
      .cons ⟨rfl, ?_⟩ <| .cons ⟨rfl, ?_⟩ <| .cons ⟨rfl, trivial⟩ <| .cons ⟨rfl, ?_⟩ <|
        .cons ⟨rfl, ?_⟩ <| .nil _, rfl, rfl⟩
    all_goals
      apply oneAtATime_of_only
      repeat first | exact hnone | apply only_update
  exact ⟨s, allOrNothing_of_run hrun, hrules, hfile⟩

/-- The insert of the new rule fails: the list has no rule at all, and the call was rejected. -/
theorem failed_insert_opens_the_list :
    ¬ ∀ (apr1 : String → String → String) (start : Start) (acts : List Act) (s : State),
    Run (Step apr1) (initial start) acts s → AllOrNothing apr1 start s := by
  intro h
  have hend := h sampleHash office [.update otherAddress, .advance 0, .advance 0, .fail 0] _
    (.cons rfl (.cons rfl (.cons rfl (.cons rfl (.nil _)))))
  exact absurd (hend.2 0 _ rfl rfl) (by decide)

end FloppyGuard.Hosts.AccessListUpdates
