import FloppyGuard.Lib.Rows
import FloppyGuard.Lib.Run
import Mathlib.Logic.Function.Basic

/-! `oidc.js` and `user.js`: which account a provider identity signs in to, while accounts are
created, changed and deleted. Every query is a step of its own; a password row always has a secret.
-/
namespace FloppyGuard.Accounts.Identity

structure User where
  id : ℕ
  email : String
  isDisabled : Bool
  isDeleted : Bool
deriving DecidableEq

inductive AuthType
  | password
  | oidc (sub : String)
deriving DecidableEq

structure AuthRow where
  id : ℕ
  userId : ℕ
  type : AuthType
  isDeleted : Bool
deriving DecidableEq

abbrev UserTable := Rows User User.id

abbrev AuthTable := Rows AuthRow AuthRow.id

def AuthRow.sub? (r : AuthRow) : Option String :=
  match r.type with
  | .oidc sub => some sub
  | .password => none

/-! The queries. -/

/-- The account of the first row with the subject. -/
def boundUser (auth : AuthTable) (sub : String) : Option ℕ :=
  (auth.rows.find? fun r => !r.isDeleted && r.sub? = some sub).map AuthRow.userId

def liveUser (users : UserTable) (id : ℕ) : Option User :=
  users.rows.find? fun u => decide (u.id = id) && !u.isDeleted

def emailUser (users : UserTable) (email : String) : Option User :=
  users.rows.find? fun u => decide (u.email = email) && !u.isDeleted

def isEmailAvailable (users : UserTable) (email : String) (userId : Option ℕ) : Bool :=
  users.rows.all fun u => !(decide (u.email = email) && !u.isDeleted && decide (some u.id ≠ userId))

def oidcRow (auth : AuthTable) (userId : ℕ) : Option AuthRow :=
  auth.rows.find? fun r => decide (r.userId = userId) && r.sub?.isSome && !r.isDeleted

def hasPassword (auth : AuthTable) (userId : ℕ) : Bool :=
  auth.rows.any fun r => decide (r.userId = userId) && decide (r.type = .password) && !r.isDeleted

/-- The row `markSso` looks for: a deleted one is taken as well. -/
def ssoRow (auth : AuthTable) (userId : ℕ) : Option AuthRow :=
  auth.rows.find? fun r => decide (r.userId = userId) && r.sub?.isSome

def ssoLinkRefusal (storedSub : Option String) (hasPassword : Bool) (sub : String)
    (unverified : Bool) :
    Option String :=
  if storedSub.getD "" ≠ "" then
    if storedSub.getD "" = sub then none
    else some "Konto ist an eine andere Anbieter-Identität gebunden"
  else if hasPassword then
    some "Konto hat ein lokales Passwort und ist nicht mit dem Anbieter verknüpft"
  else if unverified then some "E-Mail-Adresse ist beim Anbieter nicht bestätigt"
  else none

/-- How far an `ensureUser` is. -/
inductive Phase
  /-- the rows with the subject are read -/
  | looked (bound : Option ℕ)
  /-- no account of the subject: it waits for the e-mail lock -/
  | missed
  | creating
  | found (existing : User)
  | compared (existing : User) (storedSub : Option String)
  /-- the account to sign in to is decided, and the lock given back -/
  | linked (existing : User)
  | marking (existing : User) (row : Option ℕ)
  | returned (userId : ℕ)
  | refused
deriving DecidableEq

/-- `email_verified === false` is `unverified`. -/
structure Login where
  email : String
  sub : String
  unverified : Bool
  phase : Phase
deriving DecidableEq

/-- Calls of `user.js` under way. -/
inductive Admin
  | creating (email : String) (disabled auth : Bool)
  | addingPassword (userId : ℕ)
  | updating (user : User) (email : Option String) (disabled : Option Bool) (checked : Bool)
  | deleting (userId : ℕ)
  | settingPassword (userId : ℕ) (found : Option (Option ℕ))
deriving DecidableEq

inductive Owner
  | login (i : ℕ)
  | admin (j : ℕ)
deriving DecidableEq

structure State where
  users : UserTable
  auth : AuthTable
  emailLock : Option Owner
  logins : ℕ → Option Login
  admins : ℕ → Option Admin

inductive Act
  | lookup (i : ℕ) (email sub : String) (unverified : Bool)
  | readBound (i : ℕ)
  | findEmail (i : ℕ)
  | insertUser (i : ℕ)
  | readOidc (i : ℕ)
  | readPassword (i : ℕ)
  | readSso (i : ℕ)
  | markSso (i : ℕ)
  | create (j : ℕ) (email : String) (disabled auth : Bool)
  | createInsert (j : ℕ)
  | createAuth (j : ℕ)
  | update (j id : ℕ) (email : Option String) (disabled : Option Bool)
  | updateCheck (j : ℕ)
  | updatePatch (j : ℕ)
  | delete (j id : ℕ)
  | deletePatch (j : ℕ)
  | setPassword (j id : ℕ)
  | passwordRead (j : ℕ)
  | passwordWrite (j : ℕ)

def init : State := ⟨.empty, .empty, none, fun _ => none, fun _ => none⟩

namespace State

def setLogin (s : State) (i : ℕ) (c : Login) (phase : Phase) : State :=
  { s with logins := Function.update s.logins i (some { c with phase := phase }) }

def setAdmin (s : State) (j : ℕ) (o : Option Admin) : State :=
  { s with admins := Function.update s.admins j o }

def setLock (s : State) (o : Option Owner) : State := { s with emailLock := o }

def setUsers (s : State) (users : UserTable) : State := { s with users := users }

def setAuth (s : State) (auth : AuthTable) : State := { s with auth := auth }

end State

/-- A found account is signed in to unless it is disabled. -/
def letIn (existing : User) : Phase := if existing.isDisabled then .refused else .linked existing

def addUser (users : UserTable) (email : String) (disabled : Bool) : UserTable :=
  users.insert (fun id => ⟨id, email, disabled, false⟩) fun _ => rfl

def addAuth (auth : AuthTable) (userId : ℕ) (type : AuthType) : AuthTable :=
  auth.insert (fun id => ⟨id, userId, type, false⟩) fun _ => rfl

/-- `patch({ meta, is_deleted: 0 })` -/
def rebind (auth : AuthTable) (row : ℕ) (sub : String) : AuthTable :=
  auth.patch (·.id = row) (fun r => { r with type := .oidc sub, isDeleted := false }) fun _ => rfl

/-- The write of `markSso`. -/
def mark (auth : AuthTable) (userId : ℕ) (row : Option ℕ) (sub : String) : AuthTable :=
  match row with
  | some row => rebind auth row sub
  | none => addAuth auth userId (.oidc sub)

def updateUser (users : UserTable) (id : ℕ) (email : Option String) (disabled : Option Bool) :
    UserTable :=
  users.patch (·.id = id)
    (fun u => { u with email := email.getD u.email, isDisabled := disabled.getD u.isDisabled })
    fun _ => rfl

def deleteUser (users : UserTable) (id : ℕ) : UserTable :=
  users.patch (·.id = id) (fun u => { u with isDeleted := true }) fun _ => rfl

/-- The decision under the lock. -/
def decideLink (c : Login) (existing : User) (storedSub : Option String) (password : Bool) :
    Phase :=
  if (ssoLinkRefusal storedSub password c.sub c.unverified).isSome then .refused else letIn existing

/-- `get` inside `setPassword` and `delete`; a call whose check fails ends without a trace. -/
inductive Step : State → Act → State → Prop
  | lookup {s : State} {i : ℕ} {email sub : String} {unverified : Bool} : s.logins i = none →
      sub ≠ "" →
    Step s (.lookup i email sub unverified)
      (s.setLogin i ⟨email, sub, unverified, .missed⟩ (.looked (boundUser s.auth sub)))
  | readBound {s : State} {i : ℕ} {c : Login} {bound : Option ℕ} : s.logins i = some c →
      c.phase = .looked bound →
    Step s (.readBound i)
      (s.setLogin i c (((bound.bind (liveUser s.users)).map letIn).getD .missed))
  | findEmail {s : State} {i : ℕ} {c : Login} : s.logins i = some c → c.phase = .missed →
      s.emailLock = none →
    Step s (.findEmail i)
      ((s.setLogin i c (((emailUser s.users c.email).map Phase.found).getD .creating)).setLock
        (some (.login i)))
  | insertUser {s : State} {i : ℕ} {c : Login} : s.logins i = some c → c.phase = .creating →
    Step s (.insertUser i)
      (((s.setLogin i c (.linked ⟨s.users.nextId, c.email, false, false⟩)).setUsers
      (addUser s.users c.email false)).setLock none)
  | readOidc {s : State} {i : ℕ} {c : Login} {existing : User} : s.logins i = some c →
      c.phase = .found existing →
    Step s (.readOidc i)
      (s.setLogin i c (.compared existing ((oidcRow s.auth existing.id).bind AuthRow.sub?)))
  | readPassword {s : State} {i : ℕ} {c : Login} {existing : User} {storedSub : Option String} :
    s.logins i = some c → c.phase = .compared existing storedSub →
    Step s (.readPassword i)
      ((s.setLogin i c (decideLink c existing storedSub (hasPassword s.auth existing.id))).setLock
        none)
  | readSso {s : State} {i : ℕ} {c : Login} {existing : User} : s.logins i = some c →
      c.phase = .linked existing →
    Step s (.readSso i)
      (s.setLogin i c (.marking existing ((ssoRow s.auth existing.id).map AuthRow.id)))
  | markSso {s : State} {i : ℕ} {c : Login} {existing : User} {row : Option ℕ} :
      s.logins i = some c →
    c.phase = .marking existing row → Step s (.markSso i)
      ((s.setLogin i c (.returned existing.id)).setAuth (mark s.auth existing.id row c.sub))
  | create {s : State} {j : ℕ} {email : String} {disabled auth : Bool} : s.admins j = none →
      s.emailLock = none →
    isEmailAvailable s.users email none = true → Step s (.create j email disabled auth)
      ((s.setAdmin j (some (.creating email disabled auth))).setLock (some (.admin j)))
  | createInsert {s : State} {j : ℕ} {email : String} {disabled auth : Bool} :
    s.admins j = some (.creating email disabled auth) → Step s (.createInsert j)
      (((s.setAdmin j (if auth then some (.addingPassword s.users.nextId) else none)).setUsers
        (addUser s.users email disabled)).setLock none)
  | createAuth {s : State} {j userId : ℕ} : s.admins j = some (.addingPassword userId) →
    Step s (.createAuth j) ((s.setAdmin j none).setAuth (addAuth s.auth userId .password))
  | update {s : State} {j id : ℕ} {email : Option String} {disabled : Option Bool} {user : User} :
    s.admins j = none → s.emailLock = none → liveUser s.users id = some user →
      Step s (.update j id email disabled)
      ((s.setAdmin j (some (.updating user email disabled (email.all (· = user.email))))).setLock
        (some (.admin j)))
  | updateChecked {s : State} {j : ℕ} {user : User} {email : Option String}
      {disabled : Option Bool} :
    s.admins j = some (.updating user email disabled false) →
    (email.all fun e => isEmailAvailable s.users e (some user.id)) = true →
    Step s (.updateCheck j) (s.setAdmin j (some (.updating user email disabled true)))
  | updateRefused {s : State} {j : ℕ} {user : User} {email : Option String}
      {disabled : Option Bool} :
    s.admins j = some (.updating user email disabled false) →
    Step s (.updateCheck j) ((s.setAdmin j none).setLock none)
  | updatePatch {s : State} {j : ℕ} {user : User} {email : Option String} {disabled : Option Bool} :
    s.admins j = some (.updating user email disabled true) → Step s (.updatePatch j)
      (((s.setAdmin j none).setUsers (updateUser s.users user.id email disabled)).setLock none)
  | delete {s : State} {j id : ℕ} : s.admins j = none → (liveUser s.users id).isSome = true →
    Step s (.delete j id) (s.setAdmin j (some (.deleting id)))
  | deletePatch {s : State} {j id : ℕ} : s.admins j = some (.deleting id) →
    Step s (.deletePatch j) ((s.setAdmin j none).setUsers (deleteUser s.users id))
  | setPassword {s : State} {j id : ℕ} : s.admins j = none → (liveUser s.users id).isSome = true →
    Step s (.setPassword j id) (s.setAdmin j (some (.settingPassword id none)))
  | passwordRead {s : State} {j id : ℕ} : s.admins j = some (.settingPassword id none) →
    Step s (.passwordRead j) (s.setAdmin j (some (.settingPassword id
      (some ((s.auth.rows.find? fun r => decide (r.userId = id) && decide (r.type = .password)).map
        AuthRow.id)))))
  -- the patch of a row that is there changes its secret only
  | passwordPatched {s : State} {j id row : ℕ} : s.admins j =
      some (.settingPassword id (some (some row))) →
    Step s (.passwordWrite j) (s.setAdmin j none)
  | passwordInserted {s : State} {j id : ℕ} : s.admins j = some (.settingPassword id (some none)) →
    Step s (.passwordWrite j) ((s.setAdmin j none).setAuth (addAuth s.auth id .password))

/-! Bindings, and logins that are about to write one. -/

def Bound (s : State) (u : ℕ) (x : String) : Prop :=
  ∃ r ∈ s.auth.rows, r.userId = u ∧ r.type = .oidc x

def HasPassword (s : State) (u : ℕ) : Prop := ∃ r ∈ s.auth.rows, r.userId = u ∧ r.type = .password

def Alive (s : State) (u : ℕ) : Prop := ∃ r ∈ s.users.rows, r.id = u ∧ r.isDeleted = false

/-- Neither deleted nor disabled. -/
def Active (s : State) (u : ℕ) : Prop :=
  ∃ r ∈ s.users.rows, r.id = u ∧ r.isDeleted = false ∧ r.isDisabled = false

/-- The account whose binding the login has still to write. -/
def Phase.holds : Phase → Option ℕ
  | linked existing | marking existing _ => some existing.id
  | _ => none

/-- The login has not read the account it will sign in to. -/
def Phase.searches : Phase → Bool
  | looked _ | missed => true
  | _ => false

/-- A login has been let through to the account, and its binding is not written yet. -/
def Holds (s : State) (i u : ℕ) (x : String) : Prop :=
  ∃ c, s.logins i = some c ∧ c.phase.holds = some u ∧ c.sub = x

def Pledged (s : State) (u : ℕ) (x : String) : Prop := Bound s u x ∨ ∃ i, Holds s i u x

/-- No login is between its decision and its binding on an account without one. -/
def NoHalfLink (s : State) (u : ℕ) : Prop := (∃ x, Bound s u x) ∨ ∀ i x, ¬ Holds s i u x

/-- No login of a subject bound to the account has still to read it. -/
def Settled (s : State) (u : ℕ) : Prop :=
  ∀ i c, s.logins i = some c → Bound s u c.sub → c.phase.searches = false

/-- Logins and changes do not cross: the e-mail leads to the account its subject belongs to, two
subjects are not let through to one account at a time, an account gets its first password or is
switched off between logins. -/
def Steady (s : State) : Act → Prop
  | .findEmail i => ∀ c, s.logins i = some c →
    (∀ u, Alive s u → Pledged s u c.sub → ∃ existing, emailUser s.users c.email = some existing ∧
      existing.id = u) ∧
    ∀ existing, emailUser s.users c.email = some existing → (∀ x, ¬ Bound s existing.id x) →
      ∀ i' x, Holds s i' existing.id x → x = c.sub
  | .createAuth j => ∀ u, s.admins j = some (.addingPassword u) → NoHalfLink s u
  | .passwordWrite j => ∀ u, s.admins j = some (.settingPassword u (some none)) → NoHalfLink s u
  | .updatePatch j =>
    ∀ user email, s.admins j = some (.updating user email (some true) true) → Settled s user.id
  | .deletePatch j => ∀ u, s.admins j = some (.deleting u) → Settled s u
  | _ => True

variable {s t : State} {a : Act} {xs ys : List Act} {i j u v : ℕ} {x y : String} {c : Login}
  {p : Phase}

/-- What is known of a login at its place. -/
def PhaseOk (s : State) (i : ℕ) (c : Login) : Prop :=
  match c.phase with
  | .looked bound => ∀ v, bound = some v → Bound s v c.sub
  | .missed | .refused => True
  | .creating => s.emailLock = some (.login i) ∧ ∀ u, Alive s u → ¬ Pledged s u c.sub
  | .found e => s.emailLock = some (.login i) ∧ e.id < s.users.nextId ∧
    ((∀ y, Bound s e.id y → y = c.sub) → ∀ y, Pledged s e.id y → y = c.sub) ∧
    ∀ u, Alive s u → Pledged s u c.sub → u = e.id
  | .compared e storedSub => s.emailLock = some (.login i) ∧ e.id < s.users.nextId ∧
    (storedSub = none → ∀ y, Pledged s e.id y → y = c.sub) ∧
      (∀ y, storedSub = some y → Bound s e.id y) ∧
    ∀ u, Alive s u → Pledged s u c.sub → u = e.id
  | .linked e => e.id < s.users.nextId
  | .marking e row => e.id < s.users.nextId ∧ ∀ id, row = some id →
    ∃ r ∈ s.auth.rows, r.id = id ∧ r.userId = e.id ∧ ∃ y, r.type = .oidc y
  | .returned u => Bound s u c.sub

structure Inv (s : State) : Prop where
  kept : ∀ r ∈ s.auth.rows, r.isDeleted = false
  subs : ∀ u x, Bound s u x → x ≠ ""
  known : ∀ r ∈ s.auth.rows, r.userId < s.users.nextId
  adding : ∀ j u, s.admins j = some (.addingPassword u) → u < s.users.nextId
  setting : ∀ j u found, s.admins j = some (.settingPassword u found) → u < s.users.nextId
  creates : ∀ j email disabled auth, s.admins j = some (.creating email disabled auth) →
    s.emailLock = some (.admin j)
  updates : ∀ j user email disabled checked,
    s.admins j = some (.updating user email disabled checked) →
    s.emailLock = some (.admin j)
  loginSubs : ∀ i c, s.logins i = some c → c.sub ≠ ""
  one : ∀ u x y, Pledged s u x → Pledged s u y → x = y
  single : ∀ u v x, Alive s u → Alive s v → Pledged s u x → Pledged s v x → u = v
  password : ∀ u x, HasPassword s u → Pledged s u x → ∃ y, Bound s u y
  phases : ∀ i c, s.logins i = some c → PhaseOk s i c

theorem Inv.pledged_lt (h : Inv s) (hp : Pledged s u x) : u < s.users.nextId := by
  rcases hp with ⟨r, hr, rfl, -⟩ | ⟨i, c, hc, hu, -⟩
  · exact h.known r hr
  · have hok := h.phases i c hc
    unfold PhaseOk at hok
    unfold Phase.holds at hu
    split at hu
    · rename_i e he
      rw [he] at hok
      exact Option.some.inj hu ▸ hok
    · rename_i e row he
      rw [he] at hok
      exact Option.some.inj hu ▸ hok.1
    · cases hu

/-- Bindings stay, row by row. -/
def Keeps (s t : State) : Prop := ∀ r ∈ s.auth.rows, ∀ x, r.type = .oidc x →
  ∃ r' ∈ t.auth.rows, r'.id = r.id ∧ r'.userId = r.userId ∧ r'.type = .oidc x

theorem Keeps.bound (h : Keeps s t) (hb : Bound s u x) : Bound t u x := by
  obtain ⟨r, hr, rfl, hx⟩ := hb
  obtain ⟨r', hr', -, hu, hx'⟩ := h r hr x hx
  exact ⟨r', hr', hu, hx'⟩

theorem Keeps.of_auth (h : t.auth = s.auth) : Keeps s t :=
  fun r hr _ hx => ⟨r, h ▸ hr, rfl, rfl, hx⟩

/-- A login stays where it is while others move on; no account is pledged anew while it holds the
e-mail lock. -/
theorem PhaseOk.mono (h : PhaseOk s i c) (hkeeps : Keeps s t)
    (hnext : s.users.nextId ≤ t.users.nextId)
    (hlock : s.emailLock = some (.login i) → t.emailLock = some (.login i) ∧
      (∀ u y, Pledged t u y → Pledged s u y) ∧ ∀ u, Alive t u → Pledged t u c.sub → Alive s u) :
    PhaseOk t i c := by
  unfold PhaseOk at h ⊢
  split
  · rename_i bound hp
    rw [hp] at h
    exact fun v hv => hkeeps.bound (h v hv)
  · trivial
  · trivial
  · rename_i hp
    rw [hp] at h
    obtain ⟨hown, hfree⟩ := h
    obtain ⟨hown', hpledged, halive⟩ := hlock hown
    exact ⟨hown', fun u hu hpu => hfree u (halive u hu hpu) (hpledged u _ hpu)⟩
  · rename_i e hp
    rw [hp] at h
    obtain ⟨hown, hlt, hone, hsingle⟩ := h
    obtain ⟨hown', hpledged, halive⟩ := hlock hown
    refine ⟨hown', Nat.lt_of_lt_of_le hlt hnext, ?_, fun u hu hpu =>
      hsingle u (halive u hu hpu) (hpledged u _ hpu)⟩
    exact fun hb y hy => hone (fun z hz => hb z (hkeeps.bound hz)) y (hpledged _ y hy)
  · rename_i e storedSub hp
    rw [hp] at h
    obtain ⟨hown, hlt, hone, hstored, hsingle⟩ := h
    obtain ⟨hown', hpledged, halive⟩ := hlock hown
    exact ⟨hown', Nat.lt_of_lt_of_le hlt hnext, fun hn y hy => hone hn y (hpledged _ y hy),
      fun y hy => hkeeps.bound (hstored y hy), fun u hu hpu =>
        hsingle u (halive u hu hpu) (hpledged u _ hpu)⟩
  · rename_i e hp
    rw [hp] at h
    exact Nat.lt_of_lt_of_le h hnext
  · rename_i e row hp
    rw [hp] at h
    refine ⟨Nat.lt_of_lt_of_le h.1 hnext, fun id hid => ?_⟩
    obtain ⟨r, hr, hrid, hru, y, hy⟩ := h.2 id hid
    obtain ⟨r', hr', hid', hu', hy'⟩ := hkeeps r hr y hy
    exact ⟨r', hr', hid'.trans hrid, hu'.trans hru, y, hy'⟩
  · rename_i u hp
    rw [hp] at h
    exact hkeeps.bound h

/-! The queries and the tables. -/

theorem sub?_eq_some {r : AuthRow} : r.sub? = some x ↔ r.type = .oidc x := by
  unfold AuthRow.sub?
  cases r.type <;> simp

theorem boundUser_spec (h : boundUser s.auth x = some u) : Bound s u x := by
  obtain ⟨r, hr, rfl⟩ := Option.map_eq_some_iff.mp h
  have hsub := List.find?_some hr
  simp only [Bool.and_eq_true, decide_eq_true_eq] at hsub
  exact ⟨r, List.mem_of_find?_eq_some hr, rfl, sub?_eq_some.mp hsub.2⟩

theorem liveUser_spec {users : UserTable} {r : User} (h : liveUser users u = some r) :
    r ∈ users.rows ∧ r.id = u ∧ r.isDeleted = false := by
  have hr := List.find?_some h
  simp only [Bool.and_eq_true, decide_eq_true_eq, Bool.not_eq_true'] at hr
  exact ⟨List.mem_of_find?_eq_some h, hr⟩

theorem emailUser_spec {users : UserTable} {email : String} {r : User}
    (h : emailUser users email = some r) :
    r ∈ users.rows ∧ r.email = email ∧ r.isDeleted = false := by
  have hr := List.find?_some h
  simp only [Bool.and_eq_true, decide_eq_true_eq, Bool.not_eq_true'] at hr
  exact ⟨List.mem_of_find?_eq_some h, hr⟩

/-- The stored subject of an account, when no row is deleted. -/
theorem oidcRow_none (h : Inv s) (ho : (oidcRow s.auth u).bind AuthRow.sub? = none) :
    ¬ Bound s u x := by
  rintro ⟨r, hr, hu, hx⟩
  have hsub : r.sub? = some x := sub?_eq_some.mpr hx
  cases hrow : oidcRow s.auth u with
  | none =>
    have := List.find?_eq_none.mp hrow r hr
    simp [hu, hsub, h.kept r hr] at this
  | some r' =>
    have hr' := List.find?_some hrow
    simp only [Bool.and_eq_true] at hr'
    obtain ⟨y, hy⟩ := Option.isSome_iff_exists.mp hr'.1.2
    rw [hrow, Option.bind_some, hy] at ho
    cases ho

theorem oidcRow_some (ho : (oidcRow s.auth u).bind AuthRow.sub? = some x) : Bound s u x := by
  obtain ⟨r, hr, hx⟩ := Option.bind_eq_some_iff.mp ho
  have hrow := List.find?_some hr
  simp only [Bool.and_eq_true, decide_eq_true_eq] at hrow
  exact ⟨r, List.mem_of_find?_eq_some hr, hrow.1.1, sub?_eq_some.mp hx⟩

theorem ssoRow_spec {r : AuthRow} (h : ssoRow s.auth u = some r) :
    r ∈ s.auth.rows ∧ r.userId = u ∧ ∃ y, r.type = .oidc y := by
  have hr := List.find?_some h
  simp only [Bool.and_eq_true, decide_eq_true_eq] at hr
  obtain ⟨y, hy⟩ := Option.isSome_iff_exists.mp hr.2
  exact ⟨List.mem_of_find?_eq_some h, hr.1, y, sub?_eq_some.mp hy⟩

theorem hasPassword_iff (h : Inv s) : hasPassword s.auth u = true ↔ HasPassword s u := by
  rw [hasPassword, List.any_eq_true]
  constructor
  · rintro ⟨r, hr, hp⟩
    simp only [Bool.and_eq_true, decide_eq_true_eq] at hp
    exact ⟨r, hr, hp.1.1, hp.1.2⟩
  · rintro ⟨r, hr, hu, hp⟩
    exact ⟨r, hr, by simp [hu, hp, h.kept r hr]⟩

/-! One login moves on. -/

theorem logins_setLogin {i' : ℕ} {c' : Login} (h : (s.setLogin i c p).logins i' = some c') :
    (i' = i ∧ c' = { c with phase := p }) ∨ (i' ≠ i ∧ s.logins i' = some c') := by
  change Function.update s.logins i (some { c with phase := p }) i' = some c' at h
  rcases eq_or_ne i' i with rfl | hne
  · rw [Function.update_self] at h
    exact Or.inl ⟨rfl, (Option.some.inj h).symm⟩
  · rw [Function.update_of_ne hne] at h
    exact Or.inr ⟨hne, h⟩

/-- A pledge after a move is an old one, or that of the login that has moved. -/
theorem pledged_setLogin {o : Option Owner} (h : Pledged ((s.setLogin i c p).setLock o) u x) :
    Pledged s u x ∨ p.holds = some u ∧ c.sub = x := by
  rcases h with hb | ⟨i', c', hc', hu, hx⟩
  · exact Or.inl (Or.inl hb)
  · rcases logins_setLogin hc' with ⟨-, rfl⟩ | ⟨-, hc'⟩
    · exact Or.inr ⟨hu, hx⟩
    · exact Or.inl (Or.inr ⟨i', c', hc', hu, hx⟩)

/-- How the e-mail lock goes from hand to hand. -/
def Passes (i : ℕ) (o o' : Option Owner) : Prop :=
  ∀ owner, o = some owner → owner = .login i ∨ o' = some owner

/-- A login moves on without pledging an account. -/
theorem Inv.move {o : Option Owner} (h : Inv s) (hsub : c.sub ≠ "") (hpass : Passes i s.emailLock o)
    (hold : ∀ u, p.holds = some u → Pledged s u c.sub)
    (hok : PhaseOk ((s.setLogin i c p).setLock o) i { c with phase := p }) :
    Inv ((s.setLogin i c p).setLock o) := by
  have hpledged : ∀ u x, Pledged ((s.setLogin i c p).setLock o) u x → Pledged s u x := by
    intro u x hp
    rcases pledged_setLogin hp with hp | ⟨hu, rfl⟩
    · exact hp
    · exact hold u hu
  have hadmin : ∀ j, s.emailLock = some (.admin j) → o = some (.admin j) := by
    intro j hj
    rcases hpass _ hj with he | he
    · cases he
    · exact he
  refine ⟨h.kept, h.subs, h.known, h.adding, h.setting, fun j e d f hj =>
    hadmin j (h.creates j e d f hj),
    fun j r e d f hj => hadmin j (h.updates j r e d f hj), ?_,
    fun u x y hx hy => h.one u x y (hpledged u x hx) (hpledged u y hy),
    fun u v x hu hv hx hy => h.single u v x hu hv (hpledged u x hx) (hpledged v x hy),
    fun u x hpw hx => h.password u x hpw (hpledged u x hx), ?_⟩
  · intro i' c' hc'
    rcases logins_setLogin hc' with ⟨-, rfl⟩ | ⟨-, hc'⟩
    · exact hsub
    · exact h.loginSubs i' c' hc'
  · intro i' c' hc'
    rcases logins_setLogin hc' with ⟨rfl, rfl⟩ | ⟨hne, hc'⟩
    · exact hok
    · refine (h.phases i' c' hc').mono (Keeps.of_auth rfl) (Nat.le_refl _) fun hown => ?_
      refine ⟨?_, hpledged, fun u hu _ => hu⟩
      rcases hpass _ hown with he | he
      · exact absurd (Owner.login.inj he) hne
      · exact he

/-- The login that holds the lock is let through to an account. -/
theorem Inv.pledge {e : User} (h : Inv s) (hsub : c.sub ≠ "") (hown : s.emailLock = some (.login i))
    (hlt : e.id < s.users.nextId) (hone : ∀ y, Pledged s e.id y → y = c.sub)
    (hsingle : ∀ u, Alive s u → Pledged s u c.sub → u = e.id)
    (hpassword : HasPassword s e.id → ∃ y, Bound s e.id y) :
    Inv ((s.setLogin i c (.linked e)).setLock none) := by
  have hpledged : ∀ u x, Pledged ((s.setLogin i c (.linked e)).setLock none) u x →
      Pledged s u x ∨ e.id = u ∧ c.sub = x := by
    intro u x hp
    exact (pledged_setLogin hp).imp id fun hu => ⟨Option.some.inj hu.1, hu.2⟩
  have hadmin : ∀ j, s.emailLock ≠ some (.admin j) := by
    intro j hj
    cases hown.symm.trans hj
  refine ⟨h.kept, h.subs, h.known, h.adding, h.setting, fun j e d f hj =>
    absurd (h.creates j e d f hj) (hadmin j),
    fun j r e d f hj => absurd (h.updates j r e d f hj) (hadmin j), ?_, ?_, ?_, ?_, ?_⟩
  · intro i' c' hc'
    rcases logins_setLogin hc' with ⟨-, rfl⟩ | ⟨-, hc'⟩
    · exact hsub
    · exact h.loginSubs i' c' hc'
  · intro u x y hx hy
    rcases hpledged u x hx with hx | ⟨rfl, rfl⟩
    · rcases hpledged u y hy with hy | ⟨rfl, rfl⟩
      · exact h.one u x y hx hy
      · exact hone x hx
    · rcases hpledged e.id y hy with hy | ⟨-, rfl⟩
      · exact (hone y hy).symm
      · rfl
  · intro u v x hu hv hx hy
    rcases hpledged u x hx with hx | ⟨rfl, rfl⟩
    · rcases hpledged v x hy with hy | ⟨rfl, rfl⟩
      · exact h.single u v x hu hv hx hy
      · exact hsingle u hu hx
    · rcases hpledged v c.sub hy with hy | ⟨rfl, -⟩
      · exact (hsingle v hv hy).symm
      · rfl
  · intro u x hpw hx
    rcases hpledged u x hx with hx | ⟨rfl, -⟩
    · exact h.password u x hpw hx
    · exact hpassword hpw
  · intro i' c' hc'
    rcases logins_setLogin hc' with ⟨rfl, rfl⟩ | ⟨hne, hc'⟩
    · exact hlt
    · refine (h.phases i' c' hc').mono (Keeps.of_auth rfl) (Nat.le_refl _) fun hown' => ?_
      exact absurd (Owner.login.inj (Option.some.inj (hown'.symm.trans hown))) hne

/-! The steps of a login. -/

theorem inv_readBound {bound : Option ℕ} (h : Inv s) (hc : s.logins i = some c)
    (hp : c.phase = .looked bound) :
    Inv (s.setLogin i c (((bound.bind (liveUser s.users)).map letIn).getD .missed)) := by
  have hok := h.phases i c hc
  rw [PhaseOk, hp] at hok
  have hkeep : Passes i s.emailLock s.emailLock := fun _ ho => Or.inr ho
  cases hr : bound.bind (liveUser s.users) with
  | none => exact h.move (h.loginSubs i c hc) hkeep nofun trivial
  | some r =>
    obtain ⟨v, hv, hr⟩ := Option.bind_eq_some_iff.mp hr
    obtain ⟨hmem, rfl, -⟩ := liveUser_spec hr
    have hlt := (s.users.ids r hmem).2
    rw [Option.map_some, Option.getD_some, letIn]
    split
    · exact h.move (h.loginSubs i c hc) hkeep nofun trivial
    · refine h.move (h.loginSubs i c hc) hkeep ?_ hlt
      rintro u ⟨⟩
      exact Or.inl (hok _ hv)

theorem inv_findEmail (h : Inv s) (hc : s.logins i = some c) (hlock : s.emailLock = none)
    (hok : Steady s (.findEmail i)) :
    Inv ((s.setLogin i c (((emailUser s.users c.email).map Phase.found).getD .creating)).setLock
      (some (.login i))) := by
  obtain ⟨hsubject, hothers⟩ := hok c hc
  have hpass : Passes i s.emailLock (some (.login i)) := by
    rw [hlock]
    nofun
  cases hr : emailUser s.users c.email with
  | none =>
    refine h.move (h.loginSubs i c hc) hpass nofun ⟨rfl, fun u hu hpu => ?_⟩
    rcases pledged_setLogin hpu with hpu | ⟨hu', -⟩
    · obtain ⟨e, he, -⟩ := hsubject u hu hpu
      rw [hr] at he
      cases he
    · cases hu'
  | some e =>
    obtain ⟨hmem, -, -⟩ := emailUser_spec hr
    refine h.move (h.loginSubs i c hc) hpass nofun ⟨rfl, (s.users.ids e hmem).2, ?_, ?_⟩
    · intro hb y hy
      rcases pledged_setLogin hy with hy | ⟨hu, -⟩
      · by_cases hbound : ∃ z, Bound s e.id z
        · obtain ⟨z, hz⟩ := hbound
          rw [← h.one e.id z y (Or.inl hz) hy]
          exact hb z hz
        · rcases hy with hy | ⟨i', hy⟩
          · exact hb y hy
          · exact hothers e hr (fun z hz => hbound ⟨z, hz⟩) i' y hy
      · cases hu
    · intro u hu hpu
      rcases pledged_setLogin hpu with hpu | ⟨hu', -⟩
      · obtain ⟨e', he', rfl⟩ := hsubject u hu hpu
        rw [hr] at he'
        rw [Option.some.inj he']
      · cases hu'

theorem inv_readOidc {e : User} (h : Inv s) (hc : s.logins i = some c) (hp : c.phase = .found e) :
    Inv (s.setLogin i c (.compared e ((oidcRow s.auth e.id).bind AuthRow.sub?))) := by
  have hok := h.phases i c hc
  rw [PhaseOk, hp] at hok
  obtain ⟨hown, hlt, hone, hsingle⟩ := hok
  have hback : ∀ u x,
    Pledged (s.setLogin i c (.compared e ((oidcRow s.auth e.id).bind AuthRow.sub?))) u x →
      Pledged s u x := by
    intro u x hpu
    rcases pledged_setLogin (o := s.emailLock) hpu with hpu | ⟨hu, -⟩
    · exact hpu
    · cases hu
  refine h.move (h.loginSubs i c hc) (fun _ ho => Or.inr ho) nofun ⟨hown, hlt, ?_, fun y hy =>
    oidcRow_some hy,
    fun u hu hpu => hsingle u hu (hback u _ hpu)⟩
  intro hnone y hy
  exact hone (fun z hz => absurd hz (oidcRow_none h hnone)) y (hback _ y hy)

theorem inv_readPassword {e : User} {storedSub : Option String} (h : Inv s)
    (hc : s.logins i = some c)
    (hp : c.phase = .compared e storedSub) :
    Inv ((s.setLogin i c (decideLink c e storedSub (hasPassword s.auth e.id))).setLock none) := by
  have hok := h.phases i c hc
  rw [PhaseOk, hp] at hok
  obtain ⟨hown, hlt, hone, hstored, hsingle⟩ := hok
  have hsub := h.loginSubs i c hc
  have hrefused : Inv ((s.setLogin i c .refused).setLock none) := by
    refine h.move hsub ?_ nofun trivial
    intro owner ho
    exact Or.inl (Option.some.inj (ho.symm.trans hown))
  unfold decideLink
  split
  · exact hrefused
  · rename_i hlink
    unfold letIn
    split
    · exact hrefused
    · cases hst : storedSub with
      | none =>
        refine h.pledge hsub hown hlt (hone hst) hsingle fun hpw => ?_
        rw [hst, (hasPassword_iff h).mpr hpw] at hlink
        exact absurd rfl hlink
      | some y =>
        have hby := hstored y hst
        have hy : y = c.sub := by
          rw [hst] at hlink
          by_contra hne
          simp [ssoLinkRefusal, h.subs _ y hby, hne] at hlink
        refine h.pledge hsub hown hlt (fun z hz => ?_) hsingle fun _ => ⟨y, hby⟩
        rw [← hy]
        exact h.one e.id z y hz (Or.inl hby)

theorem inv_readSso {e : User} (h : Inv s) (hc : s.logins i = some c) (hp : c.phase = .linked e) :
    Inv (s.setLogin i c (.marking e ((ssoRow s.auth e.id).map AuthRow.id))) := by
  have hok := h.phases i c hc
  rw [PhaseOk, hp] at hok
  refine h.move (h.loginSubs i c hc) (fun _ ho => Or.inr ho) ?_ ⟨hok, fun id hid => ?_⟩
  · rintro u ⟨⟩
    exact Or.inr ⟨i, c, hc, by rw [hp]; rfl, rfl⟩
  · obtain ⟨r, hr, rfl⟩ := Option.map_eq_some_iff.mp hid
    obtain ⟨hmem, hu, hy⟩ := ssoRow_spec hr
    exact ⟨r, hmem, rfl, hu, hy⟩

/-! Changes of the tables. -/

theorem Inv.setUsers {users : UserTable} (h : Inv s) (hnext : s.users.nextId ≤ users.nextId)
    (halive : ∀ u, Alive (s.setUsers users) u → Alive s u ∨ s.users.nextId ≤ u) :
    Inv (s.setUsers users) := by
  have hpledged : ∀ u x, Alive (s.setUsers users) u → Pledged s u x → Alive s u := by
    intro u x hu hp
    rcases halive u hu with hu | hu
    · exact hu
    · exact absurd (h.pledged_lt hp) (Nat.not_lt.mpr hu)
  refine ⟨h.kept, h.subs, fun r hr => Nat.lt_of_lt_of_le (h.known r hr) hnext,
    fun j u hj => Nat.lt_of_lt_of_le (h.adding j u hj) hnext,
    fun j u f hj => Nat.lt_of_lt_of_le (h.setting j u f hj) hnext, h.creates, h.updates,
      h.loginSubs, h.one,
    fun u v x hu hv hx hy => h.single u v x (hpledged u x hu hx) (hpledged v x hv hy) hx hy,
      h.password, ?_⟩
  intro i c hc
  exact (h.phases i c hc).mono (Keeps.of_auth rfl) hnext fun hown =>
    ⟨hown, fun _ _ hp => hp, fun u hu hp => hpledged u _ hu hp⟩

theorem alive_addUser {email : String} {disabled : Bool}
    (h : Alive (s.setUsers (addUser s.users email disabled)) u) :
    Alive s u ∨ u = s.users.nextId := by
  obtain ⟨r, hr, hu, hd⟩ := h
  rcases Rows.mem_insert.mp hr with hr | rfl
  · exact Or.inl ⟨r, hr, hu, hd⟩
  · exact Or.inr hu.symm

theorem Inv.addUser (h : Inv s) (email : String) (disabled : Bool) :
    Inv (s.setUsers (addUser s.users email disabled)) :=
  h.setUsers (Nat.le_succ _) fun _ hu => (alive_addUser hu).imp id fun he => Nat.le_of_eq he.symm

theorem alive_updateUser {id : ℕ} {email : Option String} {disabled : Option Bool} :
    Alive (s.setUsers (updateUser s.users id email disabled)) u ↔ Alive s u := by
  constructor
  · rintro ⟨r, hr, hu, hd⟩
    obtain ⟨q, hq, rfl⟩ := List.mem_map.mp hr
    refine ⟨q, hq, ?_, ?_⟩
    · split at hu <;> exact hu
    · split at hd <;> exact hd
  · rintro ⟨r, hr, hu, hd⟩
    refine ⟨_, List.mem_map_of_mem hr, ?_, ?_⟩
    · split <;> exact hu
    · split <;> exact hd

theorem alive_deleteUser {id : ℕ} (h : Alive (s.setUsers (deleteUser s.users id)) u) :
    Alive s u := by
  obtain ⟨r, hr, hu, hd⟩ := h
  obtain ⟨q, hq, rfl⟩ := List.mem_map.mp hr
  refine ⟨q, hq, ?_, ?_⟩
  · split at hu <;> exact hu
  · split at hd
    · cases hd
    · exact hd

theorem inv_insertUser (h : Inv s) (hc : s.logins i = some c) (hp : c.phase = .creating) :
    Inv (((s.setLogin i c (.linked ⟨s.users.nextId, c.email, false, false⟩)).setUsers
      (Identity.addUser s.users c.email false)).setLock none) := by
  have hok := h.phases i c hc
  rw [PhaseOk, hp] at hok
  obtain ⟨hown, hfree⟩ := hok
  have hadd := h.addUser c.email false
  refine hadd.pledge (e := ⟨s.users.nextId, c.email, false, false⟩) (h.loginSubs i c hc) hown
    (Nat.lt_succ_self _) ?_ ?_ ?_
  · intro y hy
    exact absurd (h.pledged_lt hy) (Nat.lt_irrefl _)
  · intro u hu hpu
    rcases alive_addUser hu with hu | hu
    · exact absurd hpu (hfree u hu)
    · exact hu
  · rintro ⟨r, hr, hu, -⟩
    exact absurd (h.known r hr) (by rw [hu]; exact Nat.lt_irrefl _)

/-- An account gets a password row. -/
theorem Inv.addPassword (h : Inv s) (hlt : u < s.users.nextId) (hlink : NoHalfLink s u) :
    Inv (s.setAuth (addAuth s.auth u .password)) := by
  have hrow : ∀ r ∈ (addAuth s.auth u .password).rows, r ∈ s.auth.rows ∨
      r = ⟨s.auth.nextId, u, .password, false⟩ :=
    fun r hr => Rows.mem_insert.mp hr
  have hbound : ∀ v x, Bound (s.setAuth (addAuth s.auth u .password)) v x → Bound s v x := by
    rintro v x ⟨r, hr, hv, hx⟩
    rcases hrow r hr with hr | rfl
    · exact ⟨r, hr, hv, hx⟩
    · cases hx
  have hkeeps : Keeps s (s.setAuth (addAuth s.auth u .password)) :=
    fun r hr x hx => ⟨r, Rows.mem_insert.mpr (Or.inl hr), rfl, rfl, hx⟩
  have hpledged : ∀ v x, Pledged (s.setAuth (addAuth s.auth u .password)) v x → Pledged s v x :=
    fun v x hp => hp.imp (hbound v x) id
  refine ⟨?_, fun v x hb => h.subs v x (hbound v x hb), ?_, h.adding, h.setting, h.creates,
    h.updates, h.loginSubs,
    fun v x y hx hy => h.one v x y (hpledged v x hx) (hpledged v y hy),
    fun v w x hv hw hx hy => h.single v w x hv hw (hpledged v x hx) (hpledged w x hy), ?_,
    fun i c hc => (h.phases i c hc).mono hkeeps (Nat.le_refl _) fun hown =>
      ⟨hown, hpledged, fun v hv _ => hv⟩⟩
  · intro r hr
    rcases hrow r hr with hr | rfl
    · exact h.kept r hr
    · rfl
  · intro r hr
    rcases hrow r hr with hr | rfl
    · exact h.known r hr
    · exact hlt
  · rintro v x ⟨r, hr, hv, hpw⟩ hp
    have hb : ∃ y, Bound s v y := by
      rcases hrow r hr with hr | rfl
      · exact h.password v x ⟨r, hr, hv, hpw⟩ (hpledged v x hp)
      · obtain rfl : u = v := hv
        rcases hlink with hb | hnone
        · exact hb
        · rcases hpledged u x hp with hb | ⟨i, hi⟩
          · exact ⟨x, hb⟩
          · exact absurd hi (hnone i x)
    obtain ⟨y, hy⟩ := hb
    exact ⟨y, hkeeps.bound hy⟩

/-- The write of a login adds its own binding at most. -/
theorem mem_mark {e : User} {row : Option ℕ} (h : Inv s) (hc : s.logins i = some c)
    (hp : c.phase = .marking e row) :
    (∀ r ∈ (mark s.auth e.id row c.sub).rows, r ∈ s.auth.rows ∨
      r = ⟨s.auth.nextId, e.id, .oidc c.sub, false⟩) ∧
      (∀ r ∈ s.auth.rows, r ∈ (mark s.auth e.id row c.sub).rows) ∧
      ∃ r ∈ (mark s.auth e.id row c.sub).rows, r.userId = e.id ∧ r.type = .oidc c.sub := by
  cases row with
  | none =>
    refine ⟨fun r hr => Rows.mem_insert.mp hr, fun r hr => Rows.mem_insert.mpr (Or.inl hr), ?_⟩
    exact ⟨_, Rows.mem_insert.mpr (Or.inr rfl), rfl, rfl⟩
  | some id =>
    have hok := h.phases i c hc
    rw [PhaseOk, hp] at hok
    obtain ⟨q, hq, hid, hu, y, hy⟩ := hok.2 id rfl
    -- the account is pledged to the subject of the login already
    have hsub : y = c.sub :=
      h.one e.id y c.sub (Or.inl ⟨q, hq, hu, hy⟩) (Or.inr ⟨i, c, hc, by rw [hp]; rfl, rfl⟩)
    have hsame : (mark s.auth e.id (some id) c.sub).rows = s.auth.rows := by
      change s.auth.rows.map _ = s.auth.rows
      conv_rhs => rw [← List.map_id s.auth.rows]
      refine List.map_congr_left fun r hr => ?_
      split
      · rename_i hrid
        have hrq : r = q := Rows.eq_of_key_eq hr hq ((of_decide_eq_true hrid).trans hid.symm)
        have hkept := h.kept q hq
        rw [hrq]
        obtain ⟨qid, quser, qtype, qdeleted⟩ := q
        simp only at hy hkept
        rw [hy, hkept, hsub]
        rfl
      · rfl
    rw [hsame]
    exact ⟨fun r hr => Or.inl hr, fun r hr => hr, q, hq, hu, hsub ▸ hy⟩

theorem inv_markSso {e : User} {row : Option ℕ} (h : Inv s) (hc : s.logins i = some c)
    (hp : c.phase = .marking e row) :
    Inv ((s.setLogin i c (.returned e.id)).setAuth (mark s.auth e.id row c.sub)) := by
  obtain ⟨hnew, hold, hself⟩ := mem_mark h hc hp
  have hlt : e.id < s.users.nextId := by
    have hok := h.phases i c hc
    rw [PhaseOk, hp] at hok
    exact hok.1
  have hpledge : Pledged s e.id c.sub := Or.inr ⟨i, c, hc, by rw [hp]; rfl, rfl⟩
  have hkeeps : Keeps s ((s.setLogin i c (.returned e.id)).setAuth (mark s.auth e.id row c.sub)) :=
    fun r hr x hx => ⟨r, hold r hr, rfl, rfl, hx⟩
  have hpledged : ∀ u x,
    Pledged ((s.setLogin i c (.returned e.id)).setAuth (mark s.auth e.id row c.sub)) u x →
      Pledged s u x := by
    rintro u x (⟨r, hr, hu, hx⟩ | ⟨i', c', hc', hu, hx⟩)
    · rcases hnew r hr with hr | rfl
      · exact Or.inl ⟨r, hr, hu, hx⟩
      · obtain rfl : e.id = u := hu
        obtain rfl : c.sub = x := AuthType.oidc.inj hx
        exact hpledge
    · rcases logins_setLogin hc' with ⟨-, rfl⟩ | ⟨-, hc'⟩
      · cases hu
      · exact Or.inr ⟨i', c', hc', hu, hx⟩
  refine ⟨?_, ?_, ?_, h.adding, h.setting, h.creates, h.updates, ?_,
    fun u x y hx hy => h.one u x y (hpledged u x hx) (hpledged u y hy),
    fun u v x hu hv hx hy => h.single u v x hu hv (hpledged u x hx) (hpledged v x hy), ?_, ?_⟩
  · intro r hr
    rcases hnew r hr with hr | rfl
    · exact h.kept r hr
    · rfl
  · intro u x hb
    rcases hpledged u x (Or.inl hb) with hb' | ⟨i', c', hc', -, rfl⟩
    · exact h.subs u x hb'
    · exact h.loginSubs i' c' hc'
  · intro r hr
    rcases hnew r hr with hr | rfl
    · exact h.known r hr
    · exact hlt
  · intro i' c' hc'
    rcases logins_setLogin hc' with ⟨-, rfl⟩ | ⟨-, hc'⟩
    · exact h.loginSubs i c hc
    · exact h.loginSubs i' c' hc'
  · rintro u x ⟨r, hr, hu, hpw⟩ hx
    rcases hnew r hr with hr | rfl
    · obtain ⟨y, hy⟩ := h.password u x ⟨r, hr, hu, hpw⟩ (hpledged u x hx)
      exact ⟨y, hkeeps.bound hy⟩
    · cases hpw
  · intro i' c' hc'
    rcases logins_setLogin hc' with ⟨rfl, rfl⟩ | ⟨-, hc'⟩
    · exact hself
    · exact (h.phases i' c' hc').mono hkeeps (Nat.le_refl _) fun hown =>
        ⟨hown, hpledged, fun u hu _ => hu⟩

/-! Calls of the user administration. -/

theorem admins_setAdmin {j' : ℕ} {o : Option Admin} {d : Admin}
    (h : (s.setAdmin j o).admins j' = some d) :
    (j' = j ∧ o = some d) ∨ (j' ≠ j ∧ s.admins j' = some d) := by
  change Function.update s.admins j o j' = some d at h
  rcases eq_or_ne j' j with rfl | hne
  · rw [Function.update_self] at h
    exact Or.inl ⟨rfl, h⟩
  · rw [Function.update_of_ne hne] at h
    exact Or.inr ⟨hne, h⟩

/-- What is known of a call of the administration. -/
def AdminOk (s : State) (j : ℕ) : Admin → Prop
  | .creating .. | .updating .. => s.emailLock = some (.admin j)
  | .addingPassword u | .settingPassword u _ => u < s.users.nextId
  | .deleting _ => True

theorem Inv.admin {o : Option Admin} {l : Option Owner} (h : Inv s)
    (hlock : ∀ owner, s.emailLock = some owner → owner = .admin j ∨ l = some owner)
    (ho : ∀ d, o = some d → AdminOk (s.setLock l) j d) : Inv ((s.setAdmin j o).setLock l) := by
  have hpass : ∀ j' ≠ j, s.emailLock = some (.admin j') → l = some (.admin j') := by
    intro j' hne hj'
    rcases hlock _ hj' with he | he
    · exact absurd (Owner.admin.inj he) hne
    · exact he
  refine ⟨h.kept, h.subs, h.known, ?_, ?_, ?_, ?_, h.loginSubs, h.one, h.single, h.password, ?_⟩
  · intro j' u hj'
    rcases admins_setAdmin hj' with ⟨-, hd⟩ | ⟨-, hj'⟩
    · exact ho _ hd
    · exact h.adding j' u hj'
  · intro j' u found hj'
    rcases admins_setAdmin hj' with ⟨-, hd⟩ | ⟨-, hj'⟩
    · exact ho _ hd
    · exact h.setting j' u found hj'
  · intro j' email disabled auth hj'
    rcases admins_setAdmin hj' with ⟨rfl, hd⟩ | ⟨hne, hj'⟩
    · exact ho _ hd
    · exact hpass j' hne (h.creates j' email disabled auth hj')
  · intro j' user email disabled checked hj'
    rcases admins_setAdmin hj' with ⟨rfl, hd⟩ | ⟨hne, hj'⟩
    · exact ho _ hd
    · exact hpass j' hne (h.updates j' user email disabled checked hj')
  · intro i c hc
    refine (h.phases i c hc).mono (Keeps.of_auth rfl) (Nat.le_refl _) fun hown => ?_
    refine ⟨?_, fun _ _ hp => hp, fun u hu _ => hu⟩
    rcases hlock _ hown with he | he
    · cases he
    · exact he

/-! One step keeps the invariant. -/

theorem inv_step (hs : Step s a t) (hok : Steady s a) (h : Inv s) : Inv t := by
  cases hs with
  | lookup hi hsub =>
    refine h.move hsub (fun _ ho => Or.inr ho) nofun ?_
    exact fun v hv => boundUser_spec hv
  | readBound hc hp => exact inv_readBound h hc hp
  | findEmail hc _ hlock => exact inv_findEmail h hc hlock hok
  | insertUser hc hp => exact inv_insertUser h hc hp
  | readOidc hc hp => exact inv_readOidc h hc hp
  | readPassword hc hp => exact inv_readPassword h hc hp
  | readSso hc hp => exact inv_readSso h hc hp
  | markSso hc hp => exact inv_markSso h hc hp
  | create hj hlock havailable =>
    refine h.admin (by rw [hlock]; nofun) ?_
    rintro d ⟨⟩
    rfl
  | createInsert hj =>
    rename_i j email disabled auth
    have hown := h.creates j email disabled auth hj
    refine (h.addUser email disabled).admin
      (fun _ ho => Or.inl (Option.some.inj (ho.symm.trans hown))) ?_
    intro d hd
    split at hd
    · cases hd
      exact Nat.lt_succ_self _
    · cases hd
  | createAuth hj =>
    have hadd := h.addPassword (h.adding _ _ hj) (hok _ hj)
    exact hadd.admin (fun _ ho => Or.inr ho) nofun
  | update hj hlock huser =>
    refine h.admin (by rw [hlock]; nofun) ?_
    rintro d ⟨⟩
    rfl
  | updateChecked hj havailable =>
    refine h.admin (fun _ ho => Or.inr ho) ?_
    rintro d ⟨⟩
    exact h.updates _ _ _ _ _ hj
  | updateRefused hj =>
    have hown := h.updates _ _ _ _ _ hj
    exact h.admin (fun _ ho => Or.inl (Option.some.inj (ho.symm.trans hown))) nofun
  | updatePatch hj =>
    rename_i j user email disabled
    have hown := h.updates _ _ _ _ _ hj
    have husers : Inv (s.setUsers (updateUser s.users user.id email disabled)) :=
      h.setUsers (Nat.le_refl _) fun u hu => Or.inl (alive_updateUser.mp hu)
    exact husers.admin (fun _ ho => Or.inl (Option.some.inj (ho.symm.trans hown))) nofun
  | delete hj hlive =>
    refine h.admin (fun _ ho => Or.inr ho) ?_
    rintro d ⟨⟩
    trivial
  | deletePatch hj =>
    rename_i j id
    have husers : Inv (s.setUsers (deleteUser s.users id)) :=
      h.setUsers (Nat.le_refl _) fun u hu => Or.inl (alive_deleteUser hu)
    exact husers.admin (fun _ ho => Or.inr ho) nofun
  | setPassword hj hlive =>
    refine h.admin (fun _ ho => Or.inr ho) ?_
    rintro d ⟨⟩
    obtain ⟨r, hr⟩ := Option.isSome_iff_exists.mp hlive
    obtain ⟨hmem, rfl, -⟩ := liveUser_spec hr
    exact (s.users.ids r hmem).2
  | passwordRead hj =>
    refine h.admin (fun _ ho => Or.inr ho) ?_
    rintro d ⟨⟩
    exact h.setting _ _ _ hj
  | passwordPatched hj => exact h.admin (fun _ ho => Or.inr ho) nofun
  | passwordInserted hj =>
    have hadd := h.addPassword (h.setting _ _ _ hj) (hok _ hj)
    exact hadd.admin (fun _ ho => Or.inr ho) nofun

end FloppyGuard.Accounts.Identity
