import FloppyGuard.Accounts.TwoFactor
import FloppyGuard.Lib.Checked
import Mathlib.Data.Rat.Defs

/-! `access.js`: what the user of a token may do. A request reads the user and the password row
once, in two queries, and all its checks go by what they held. -/
namespace FloppyGuard.Accounts.Access

/-- The columns of `user_permission`. -/
abbrev Permissions := List (String × String)

structure User where
  id : ℕ
  isDeleted : Bool
  isDisabled : Bool
  roles : List String
  permissions : Option Permissions
  positive : 0 < id

structure Database where
  users : List User
  /-- the password row of a user -/
  passwords : ℕ → Option AuthMeta

/-- The payload of a token whose signature holds. -/
structure Token where
  id : Option ℕ
  scope : Option (List String)
  iat : Option ℕ

inductive Error
  | unauthorized
  | revoked
  | permission
deriving DecidableEq

/-- `Token.load`: the scope `all` of old tokens is read as `user`. -/
def Token.load (token : Token) : Token :=
  if token.scope.any ("all" ∈ ·) then { token with scope := some ["user"] } else token

def Token.hasScope (token : Token) (scope : String) : Bool := token.scope.any (scope ∈ ·)

def findUser (db : Database) (id : ℕ) : Option User :=
  db.users.find? fun u => u.id = id && !u.isDeleted && !u.isDisabled

/-- The query of `init`, and the check of the scopes. Without id and without the scope `user` no
user is loaded; a query with an undefined id throws. -/
def loadUser (db : Database) (token : Token) : Except Error (Option User) :=
  if token.id.any (· ≠ 0) ∨ token.hasScope "user" then
    match token.id with
    | none => .error .permission
    | some id =>
      match findUser db id with
      | none => .error .unauthorized
      | some user =>
        if ∀ scope ∈ token.scope.getD [], scope ∈ user.roles ++ ["user"] then .ok (some user)
        else .error .unauthorized
  else .ok none

def assertTokenNotRevoked (db : Database) (id : ℕ) (iat : Option ℕ) : Except Error Unit :=
  if (db.passwords id).any fun row => iat.any (tokenRevoked row) then .error .revoked else .ok ()

/-- `userRoles` and `permissions`; the permissions are null when a user has no row of them. -/
structure Loaded where
  roles : List String
  permissions : Option Permissions

def load (user : Option User) : Loaded :=
  user.elim ⟨[], some []⟩ fun u => ⟨u.roles ++ ["user"], u.permissions⟩

/-- The second half of `init`, with the second query. -/
def checkRevoked (db : Database) (token : Token) : Option User → Except Error Loaded
  | none => .ok (load none)
  | some user => (assertTokenNotRevoked db user.id token.iat).map fun _ => load (some user)

/-! The permission files: each is a list of alternatives. -/

inductive Value
  | null
  | bool (b : Bool)
  | number (n : ℚ)
  | text (s : String)
  | object

inductive Property
  | null
  | data (v : Value)
  | text (s : String)
  | texts (xs : List String)

inductive Check
  /-- an array that contains one of the texts -/
  | contains (allowed : List String)
  /-- an array of these texts only -/
  | items (allowed : List String)
  | pattern (allowed : List String)
  /-- `objects#/properties/users` -/
  | users

structure Alternative where
  required : List String
  properties : List (String × Check)

def admin : Alternative :=
  ⟨["scope", "roles"], [("scope", .contains ["user"]), ("roles", .contains ["admin"])]⟩

def user : Alternative := ⟨["scope"], [("scope", .contains ["user"])]⟩

def view : List String := ["view", "manage"]

def manage : List String := ["manage"]

def adminFile : List Alternative := [admin]

def hostFile (object : String) (levels : List String) : List Alternative :=
  [admin, ⟨["permission_" ++ object, "roles"],
    [("permission_" ++ object, .pattern levels), ("roles", .items ["user"])]⟩]

def ownFile : List Alternative :=
  [admin, ⟨["data", "scope"], [("data", .users), ("scope", .contains ["user"])]⟩]

def hostFiles (object : String) : List (String × List Alternative) :=
  [(object ++ "-create", hostFile object manage), (object ++ "-delete", hostFile object manage),
    (object ++ "-get", hostFile object view), (object ++ "-list", hostFile object view),
    (object ++ "-update", hostFile object manage)]

/-- The files of `access/`, by name. -/
def files : List (String × List Alternative) :=
  hostFiles "access_lists" ++ [("auditlog-list", adminFile)] ++ hostFiles "certificates" ++
    hostFiles "dead_hosts" ++
    hostFiles "proxy_hosts" ++ hostFiles "redirection_hosts" ++
      [("reports-hosts", [user]), ("settings-get", adminFile),
      ("settings-list", adminFile), ("settings-update", adminFile)] ++ hostFiles "streams" ++
    [("users-create", adminFile), ("users-delete", adminFile), ("users-get", ownFile),
      ("users-list", adminFile),
      ("users-loginas", adminFile), ("users-password", ownFile), ("users-permissions", adminFile),
        ("users-update", ownFile)]

/-- `permission.replace(/:/gim, "-")` -/
def fileName (permission : String) : String :=
  String.ofList (permission.toList.map fun c => if c = ':' then '-' else c)

section Judge

-- `Number` of a text that is not empty, `none` for NaN
variable (numberOf : String → Option ℚ)

/-- The number that a value is coerced to. -/
def toNumber : Value → Option ℚ
  | .null => some 0
  | .bool b => some (if b then 1 else 0)
  | .number n => some n
  | .text s => if s = "" then none else numberOf s
  | .object => none

/-- The ids that `objects` lists; `none` if it lists none. -/
def loadObjects (token : Token) : Option (List ℕ) :=
  if token.hasScope "user" then some token.id.toList else none

def Check.ok (objects : Option (List ℕ)) : Check → Property → Bool
  | .contains allowed, .texts xs => xs.any (· ∈ allowed)
  | .items allowed, .texts xs => xs.all (· ∈ allowed)
  | .pattern allowed, .text s => s ∈ allowed
  | .users, .data v =>
    (toNumber numberOf v).any fun n => 1 ≤ n && objects.all fun ids => n ∈ ids.map Nat.cast
  | _, _ => false

/-- `dataSchema[permission]` -/
def property (token : Token) (roles : List String) (permissions : Permissions) (data : Option Value)
    (name : String) :
    Option Property :=
  if name = "data" then data.map .data
  else if name = "scope" then some (token.scope.elim .null .texts)
  else if name = "roles" then some (.texts roles)
  else
    (["visibility", "proxy_hosts", "redirection_hosts", "dead_hosts", "streams", "access_lists",
      "certificates"].find?
    fun column => "permission_" ++ column = name).bind fun column =>
      (permissions.lookup column).map .text

def Alternative.ok (objects : Option (List ℕ)) (get : String → Option Property)
    (alt : Alternative) : Bool :=
  (alt.required.all fun name => (get name).isSome) &&
    alt.properties.all fun p => (get p.1).all (p.2.ok numberOf objects)

/-- A file that names `objects#`. -/
def needsObjects (file : List Alternative) : Bool :=
  file.any fun alt => alt.properties.any fun p => match p.2 with | .users => true | _ => false

/-- What `can` does after `init`; what is thrown ends as a permission error. It returns the
permissions of the user. -/
def judge (token : Token) (loaded : Loaded) (permission : String) (data : Option Value) :
    Except Error Permissions :=
  match files.lookup (fileName permission), loaded.permissions with
  | some file, some permissions =>
    if needsObjects file ∧ token.hasScope "user" ∧ token.id.all (· = 0) then .error .permission
    else
      if file.any
        (Alternative.ok numberOf (loadObjects token)
          (property token loaded.roles permissions data)) then
      .ok permissions
    else .error .permission
  | _, _ => .error .permission

/-- `can`, for a database at each of its two queries. -/
def can (db db' : Database) (token : Token) (permission : String) (data : Option Value) :
    Except Error Permissions := do
  let user ← loadUser db token
  let loaded ← checkRevoked db' token user
  judge numberOf token loaded permission data

end Judge

/-! The permissions that the program asks for, and who has them. -/

inductive Object
  | accessLists
  | certificates
  | deadHosts
  | proxyHosts
  | redirectionHosts
  | streams

def Object.name : Object → String
  | accessLists => "access_lists"
  | certificates => "certificates"
  | deadHosts => "dead_hosts"
  | proxyHosts => "proxy_hosts"
  | redirectionHosts => "redirection_hosts"
  | streams => "streams"

inductive Action
  | create
  | delete
  | get
  | list
  | update

def Action.name : Action → String
  | create => "create"
  | delete => "delete"
  | get => "get"
  | list => "list"
  | update => "update"

def Action.levels : Action → List String
  | get | list => view
  | create | delete | update => manage

inductive Permission
  | object (o : Object) (a : Action)
  | usersCreate
  | usersDelete
  | usersGet
  | usersList
  | usersLoginas
  | usersPassword
  | usersPermissions
  | usersUpdate
  | settingsGet
  | settingsList
  | settingsUpdate
  | auditlogList
  | reportsHosts

def Permission.label : Permission → String
  | object o a => o.name ++ ":" ++ a.name
  | usersCreate => "users:create"
  | usersDelete => "users:delete"
  | usersGet => "users:get"
  | usersList => "users:list"
  | usersLoginas => "users:loginas"
  | usersPassword => "users:password"
  | usersPermissions => "users:permissions"
  | usersUpdate => "users:update"
  | settingsGet => "settings:get"
  | settingsList => "settings:list"
  | settingsUpdate => "settings:update"
  | auditlogList => "auditlog:list"
  | reportsHosts => "reports:hosts"

/-- Who may do what, apart from an administrator: with the level for the kind of object and no
further role, or with the own id. -/
def Entitled (numberOf : String → Option ℚ) (token : Token) (user : User)
    (permissions : Permissions) (data : Option Value) :
    Permission → Prop
  | .object o a =>
    (∃ level ∈ a.levels, permissions.lookup o.name = some level) ∧ ∀ role ∈ user.roles,
      role = "user"
  | .usersGet | .usersPassword | .usersUpdate =>
    token.hasScope "user" = true ∧ ∃ v, data = some v ∧ toNumber numberOf v = some (user.id : ℚ)
  | .reportsHosts => token.hasScope "user" = true
  | _ => False

/-- The user of a token: neither deleted nor disabled, with all scopes of the token. -/
def Current (db : Database) (token : Token) (user : User) : Prop :=
  token.id = some user.id ∧ findUser db user.id = some user ∧ ∀ scope ∈ token.scope.getD [],
    scope ∈ user.roles ++ ["user"]

variable {numberOf : String → Option ℚ} {db db' : Database} {token : Token} {user : User}
  {permissions g : Permissions}
  {loaded : Loaded} {roles : List String} {data : Option Value} {objects : Option (List ℕ)}
    {p : Permission} {o : Object}

/-! Each alternative, on what `can` hands to it. -/

theorem property_permission : property token roles permissions data ("permission_" ++ o.name) =
    (permissions.lookup o.name).map .text := by
  cases o <;> rfl

theorem property_data : property token roles permissions data "data" = data.map .data := rfl

theorem property_scope :
    property token roles permissions data "scope" = some (token.scope.elim .null .texts) := rfl

theorem property_roles : property token roles permissions data "roles" = some (.texts roles) := rfl

theorem contains_texts {x : String} {xs : List String} :
    Check.ok numberOf objects (.contains [x]) (.texts xs) ↔ x ∈ xs := by
  rw [Check.ok, List.any_eq_true]
  constructor
  · rintro ⟨y, hy, hyx⟩
    obtain rfl := List.mem_singleton.mp (of_decide_eq_true hyx)
    exact hy
  · intro hx
    exact ⟨x, hx, decide_eq_true (List.mem_singleton_self x)⟩

theorem contains_scope :
    Check.ok numberOf objects (.contains ["user"]) (token.scope.elim .null .texts) ↔
    token.hasScope "user" = true := by
  rw [Token.hasScope]
  cases token.scope with
  | none => exact Iff.rfl
  | some scope => exact contains_texts.trans decide_eq_true_iff.symm

theorem admin_ok : admin.ok numberOf objects (property token roles permissions data) ↔
    token.hasScope "user" = true ∧ "admin" ∈ roles := by
  simp only [Alternative.ok, admin, List.all_cons, List.all_nil, property_scope, property_roles,
    Option.isSome_some,
    Option.all_some, Bool.and_eq_true, Bool.true_and, Bool.and_true, contains_scope, contains_texts]

theorem user_ok : Access.user.ok numberOf objects (property token roles permissions data) ↔
    token.hasScope "user" = true := by
  simp only [Alternative.ok, Access.user, List.all_cons, List.all_nil, property_scope,
    Option.isSome_some, Option.all_some,
    Bool.true_and, Bool.and_true, contains_scope]

/-- The alternative of a kind of hosts. -/
def hostUser (object : String) (levels : List String) : Alternative :=
  ⟨["permission_" ++ object, "roles"],
    [("permission_" ++ object, .pattern levels), ("roles", .items ["user"])]⟩

theorem hostUser_ok {levels : List String} :
    (hostUser o.name levels).ok numberOf objects (property token roles permissions data) ↔
      (∃ level ∈ levels, permissions.lookup o.name = some level) ∧ ∀ role ∈ roles,
      role = "user" := by
  simp only [Alternative.ok, hostUser, List.all_cons, List.all_nil, property_permission,
    property_roles, Option.isSome_some,
    Option.isSome_map, Option.all_some, Bool.and_eq_true, Bool.and_true]
  cases permissions.lookup o.name with
  | none => simp
  | some level => simp [Check.ok]

def ownUser : Alternative := ⟨["data", "scope"], [("data", .users), ("scope", .contains ["user"])]⟩

theorem ownUser_ok : ownUser.ok numberOf objects (property token roles permissions data) ↔
    (∃ v, data = some v ∧ Check.ok numberOf objects .users (.data v)) ∧
    token.hasScope "user" = true := by
  simp only [Alternative.ok, ownUser, List.all_cons, List.all_nil, property_data, property_scope,
    Option.isSome_some,
    Option.isSome_map, Option.all_some, Bool.and_eq_true, Bool.and_true, contains_scope]
  cases data with
  | none => simp
  | some v => simp

/-! The file of each permission, and the whole of `can`. -/

def Permission.file : Permission → List Alternative
  | .object o a => hostFile o.name a.levels
  | .usersGet | .usersPassword | .usersUpdate => ownFile
  | .reportsHosts => [Access.user]
  | _ => adminFile

theorem lookup_file (p : Permission) : files.lookup (fileName p.label) = some p.file := by
  cases p with
  | object o a => cases o <;> cases a <;> rfl
  | _ => rfl

/-- What the alternatives of a file say of a user, with the role that each one has. -/
theorem file_ok (hid : token.id = some user.id) :
    p.file.any
      (Alternative.ok numberOf (loadObjects token)
        (property token (user.roles ++ ["user"]) g data)) ↔
      token.hasScope "user" = true ∧ "admin" ∈ user.roles ∨
      Entitled numberOf token user g data p := by
  have hadmin : "admin" ∈ user.roles ++ ["user"] ↔ "admin" ∈ user.roles := by simp
  have hroles : (∀ role ∈ user.roles ++ ["user"], role = "user") ↔ ∀ role ∈ user.roles,
      role = "user" := by
    simp only [List.mem_append, List.mem_singleton]
    exact ⟨fun h role hr => h role (.inl hr), fun h role hr => hr.elim (h role) id⟩
  have hown : token.hasScope "user" = true →
    ∀ v, Check.ok numberOf (loadObjects token) .users (.data v) ↔
      toNumber numberOf v = some (user.id : ℚ) := by
    intro hscope v
    have hone : (1 : ℚ) ≤ user.id := by exact_mod_cast user.positive
    rw [loadObjects, if_pos hscope, hid, Check.ok]
    cases toNumber numberOf v with
    | none => simp
    | some n =>
      simp only [Option.any_some, Option.all_some, Option.toList_some, List.map_cons, List.map_nil,
        List.mem_singleton,
        Bool.and_eq_true, decide_eq_true_eq, Option.some.injEq]
      exact ⟨fun h => h.2, fun h => ⟨h ▸ hone, h⟩⟩
  cases p with
  | object o a =>
    change List.any [admin, hostUser o.name a.levels] _ ↔ _
    rw [List.any_cons, List.any_cons, List.any_nil, Bool.or_false, Bool.or_eq_true, admin_ok,
      hostUser_ok, hadmin, hroles]
    rfl
  | usersGet | usersPassword | usersUpdate =>
    change List.any [admin, ownUser] _ ↔ _
    rw [List.any_cons, List.any_cons, List.any_nil, Bool.or_false, Bool.or_eq_true, admin_ok,
      ownUser_ok, hadmin]
    refine or_congr_right ⟨?_, ?_⟩
    · rintro ⟨⟨v, hv, hok⟩, hscope⟩
      exact ⟨hscope, v, hv, (hown hscope v).mp hok⟩
    · rintro ⟨hscope, v, hv, hok⟩
      exact ⟨⟨v, hv, (hown hscope v).mpr hok⟩, hscope⟩
  | reportsHosts =>
    change List.any [Access.user] _ ↔ _
    rw [List.any_cons, List.any_nil, Bool.or_false, user_ok]
    exact ⟨fun h => .inr h, fun h => h.elim And.left id⟩
  | _ =>
    change List.any [admin] _ ↔ _
    rw [List.any_cons, List.any_nil, Bool.or_false, admin_ok, hadmin]
    exact (or_iff_left id).symm

/-- A token that stands for no user is refused everything. -/
theorem file_not_ok (hscope : token.hasScope "user" = false) :
    ¬ p.file.any (Alternative.ok numberOf objects (property token [] [] data)) := by
  intro h
  have hno : token.hasScope "user" ≠ true := ne_true_of_eq_false hscope
  cases p with
  | object o a =>
    change List.any [admin, hostUser o.name a.levels] _ at h
    rw [List.any_cons, List.any_cons, List.any_nil, Bool.or_false, Bool.or_eq_true, admin_ok,
      hostUser_ok] at h
    obtain h | ⟨⟨level, -, hlevel⟩, -⟩ := h
    · exact hno h.1
    · cases hlevel
  | usersGet | usersPassword | usersUpdate =>
    change List.any [admin, ownUser] _ at h
    rw [List.any_cons, List.any_cons, List.any_nil, Bool.or_false, Bool.or_eq_true, admin_ok,
      ownUser_ok] at h
    exact h.elim (fun h => hno h.1) fun h => hno h.2
  | reportsHosts =>
    change List.any [Access.user] _ at h
    rw [List.any_cons, List.any_nil, Bool.or_false, user_ok] at h
    exact hno h
  | _ =>
    change List.any [admin] _ at h
    rw [List.any_cons, List.any_nil, Bool.or_false, admin_ok] at h
    exact hno h.1

/-- Who has a permission: the current user of a token that the password row does not revoke, with a
row of permissions, and either an administrator or entitled to it. -/
def Permitted (numberOf : String → Option ℚ) (db db' : Database) (token : Token) (user : User)
    (g : Permissions)
    (data : Option Value) (p : Permission) : Prop :=
  Current db token user ∧ (∀ row, db'.passwords user.id = some row → ∀ iat, token.iat = some iat →
    tokenRevoked row iat = false) ∧
    user.permissions = some g ∧
    (token.hasScope "user" = true ∧ "admin" ∈ user.roles ∨ Entitled numberOf token user g data p)

theorem id_of_findUser {id : ℕ} (h : findUser db id = some user) : user.id = id := by
  have hfound := List.find?_some h
  rw [Bool.and_eq_true, Bool.and_eq_true, decide_eq_true_eq] at hfound
  exact hfound.1.1

theorem loadUser_eq_some : loadUser db token = .ok (some user) ↔ Current db token user := by
  constructor
  · intro h
    simp only [loadUser] at h
    split at h
    · cases hid : token.id with
      | none => simp [hid] at h
      | some id =>
        cases hfind : findUser db id with
        | none => simp [hid, hfind] at h
        | some u =>
          simp only [hid, hfind] at h
          split at h
          · next hscopes =>
            cases h
            have hu := id_of_findUser hfind
            exact ⟨hid.trans (congrArg some hu.symm), hu.symm ▸ hfind, hscopes⟩
          · cases h
    · cases h
  · rintro ⟨hid, hfind, hscopes⟩
    have hany : (some user.id).any (· ≠ 0) ∨ token.hasScope "user" := by
      left
      simpa using Nat.ne_of_gt user.positive
    simp only [loadUser, hid, hfind]
    rw [if_pos hany, if_pos hscopes]

theorem hasScope_of_loadUser (h : loadUser db token = .ok none) :
    token.hasScope "user" = false := by
  simp only [loadUser] at h
  split at h
  · cases hid : token.id with
    | none => simp [hid] at h
    | some id =>
      cases hfind : findUser db id with
      | none => simp [hid, hfind] at h
      | some u =>
        simp only [hid, hfind] at h
        split at h <;> cases h
  · next hno => exact Bool.eq_false_iff.mpr (not_or.mp hno).2

theorem checkRevoked_eq_ok : checkRevoked db token (some user) = .ok loaded ↔
    (∀ row, db.passwords user.id = some row → ∀ iat, token.iat = some iat →
      tokenRevoked row iat = false) ∧
      load (some user) = loaded := by
  rw [checkRevoked, Checked.map_eq_ok, assertTokenNotRevoked]
  cases db.passwords user.id with
  | none => simp
  | some row =>
    cases token.iat with
    | none => simp
    | some iat => cases htok : tokenRevoked row iat <;> simp [htok]

theorem judge_eq_ok :
    judge numberOf token loaded p.label data = .ok g ↔ loaded.permissions = some g ∧
    ¬ (needsObjects p.file ∧ token.hasScope "user" ∧ token.id.all (· = 0)) ∧
    p.file.any
      (Alternative.ok numberOf (loadObjects token) (property token loaded.roles g data)) := by
  rw [judge, lookup_file]
  cases loaded.permissions with
  | none => simp
  | some permissions =>
    simp only [Option.some.injEq]
    constructor
    · intro h
      split at h
      · cases h
      · next hno =>
        split at h
        · next hok =>
          cases h
          exact ⟨rfl, hno, hok⟩
        · cases h
    · rintro ⟨rfl, hno, hok⟩
      rw [if_neg hno, if_pos hok]

theorem permitted_of_can (h : can numberOf db db' token p.label data = .ok g) :
    ∃ user, Permitted numberOf db db' token user g data p := by
  obtain ⟨found, hfound, h⟩ := Checked.bind_eq_ok.mp h
  obtain ⟨loaded, hloaded, h⟩ := Checked.bind_eq_ok.mp h
  obtain ⟨hpermissions, -, hok⟩ := judge_eq_ok.mp h
  cases found with
  | none =>
    cases hloaded
    cases hpermissions
    exact absurd hok (file_not_ok (hasScope_of_loadUser hfound))
  | some user =>
    have hcurrent := loadUser_eq_some.mp hfound
    obtain ⟨hrevoked, rfl⟩ := checkRevoked_eq_ok.mp hloaded
    exact ⟨user, hcurrent, hrevoked, hpermissions, (file_ok hcurrent.1).mp hok⟩

theorem can_of_permitted (h : Permitted numberOf db db' token user g data p) :
    can numberOf db db' token p.label data = .ok g := by
  obtain ⟨hcurrent, hrevoked, hpermissions, hhas⟩ := h
  refine Checked.bind_eq_ok.mpr ⟨some user, loadUser_eq_some.mpr hcurrent,
    Checked.bind_eq_ok.mpr ?_⟩
  refine ⟨load (some user), checkRevoked_eq_ok.mpr ⟨hrevoked, rfl⟩,
    judge_eq_ok.mpr ⟨hpermissions, ?_, ?_⟩⟩
  · rintro ⟨-, -, hzero⟩
    rw [hcurrent.1, Option.all_some, decide_eq_true_eq] at hzero
    exact Nat.ne_of_gt user.positive hzero
  · exact (file_ok hcurrent.1).mpr hhas

/-- Every permission: `can` grants it to those who have it, with the permissions of their row, and
to no one else. -/
theorem can_eq_ok (numberOf : String → Option ℚ) (db db' : Database) (token : Token)
    (p : Permission) (data : Option Value)
    (g : Permissions) : can numberOf db db' token p.label data = .ok g ↔
      ∃ user, Permitted numberOf db db' token user g data p :=
  ⟨permitted_of_can, fun ⟨_, h⟩ => can_of_permitted h⟩

/-! Runs: requests with their checks, while users and password rows change. -/

/-- What a request has read of its user. -/
inductive Phase
  | fresh
  | read (user : Option User)
  | ready (loaded : Loaded)

/-- `seen` records the databases there have been since the request began. -/
structure Request where
  token : Token
  phase : Phase
  seen : List Database

/-- `granted` records the checks that went through. -/
structure State where
  db : Database
  requests : ℕ → Option Request
  granted : List (ℕ × Permission × Option Value × Permissions)

inductive Act
  | request (i : ℕ) (token : Token)
  | readUser (i : ℕ)
  | readPassword (i : ℕ)
  | can (i : ℕ) (p : Permission) (data : Option Value)
  /-- any change of users, roles, permissions or passwords -/
  | change (db : Database)

namespace State

variable (s : State)

def setPhase (i : ℕ) (r : Request) (phase : Phase) : State :=
  { s with requests := Function.update s.requests i (some { r with phase }) }

/-- A query that throws leaves the request as it was: the next check starts `init` anew. -/
def readUser (i : ℕ) (r : Request) : State :=
  match loadUser s.db r.token with
  | .ok found => s.setPhase i r (.read found)
  | .error _ => s

def readPassword (i : ℕ) (r : Request) (found : Option User) : State :=
  match checkRevoked s.db r.token found with
  | .ok loaded => s.setPhase i r (.ready loaded)
  | .error _ => s.setPhase i r .fresh

end State

def step (numberOf : String → Option ℚ) (s : State) : Act → Option State
  | .request i token =>
    if (s.requests i).isNone then
      some { s with requests := Function.update s.requests i (some ⟨token.load, .fresh, [s.db]⟩) }
    else none
  | .readUser i =>
    match s.requests i with
    | some ⟨token, .fresh, seen⟩ => some (s.readUser i ⟨token, .fresh, seen⟩)
    | _ => none
  | .readPassword i =>
    match s.requests i with
    | some ⟨token, .read found, seen⟩ => some (s.readPassword i ⟨token, .read found, seen⟩ found)
    | _ => none
  | .can i p data =>
    match s.requests i with
    | some ⟨token, .ready loaded, _⟩ =>
      match judge numberOf token loaded p.label data with
      | .ok g => some { s with granted := (i, p, data, g) :: s.granted }
      | .error _ => some s
    | _ => none
  | .change db =>
    some { s with
        db, requests := fun i => (s.requests i).map fun r => { r with seen := db :: r.seen } }

abbrev Step (numberOf : String → Option ℚ) (s : State) (a : Act) (t : State) : Prop :=
  step numberOf s a = some t

def initial (db : Database) : State := ⟨db, fun _ => none, []⟩

/-- What a request goes by was in databases that there have been since it began. -/
def Phase.Seen (token : Token) (seen : List Database) : Phase → Prop
  | .fresh => True
  | .read found => ∃ db ∈ seen, loadUser db token = .ok found
  | .ready loaded => ∃ db ∈ seen, ∃ db' ∈ seen, ∃ found, loadUser db token = .ok found ∧
      checkRevoked db' token found = .ok loaded

structure Inv (numberOf : String → Option ℚ) (s : State) : Prop where
  now : ∀ i r, s.requests i = some r → s.db ∈ r.seen
  seen : ∀ i r, s.requests i = some r → r.phase.Seen r.token r.seen
  granted : ∀ i p data g, (i, p, data, g) ∈ s.granted → ∃ r, s.requests i = some r ∧ ∃ db ∈ r.seen,
    ∃ db' ∈ r.seen,
    can numberOf db db' r.token p.label data = .ok g

variable {s t : State} {a : Act} {xs : List Act} {i j : ℕ} {r : Request} {phase : Phase}
  {seen seen' : List Database}

theorem Phase.Seen.mono (h : phase.Seen token seen) (hsub : seen ⊆ seen') :
    phase.Seen token seen' := by
  cases phase with
  | fresh => trivial
  | read found =>
    obtain ⟨db, hdb, hload⟩ := h
    exact ⟨db, hsub hdb, hload⟩
  | ready loaded =>
    obtain ⟨db, hdb, db', hdb', found, hload, hcheck⟩ := h
    exact ⟨db, hsub hdb, db', hsub hdb', found, hload, hcheck⟩

theorem inv_initial : Inv numberOf (initial db) where
  now := by simp [initial]
  seen := by simp [initial]
  granted := by simp [initial]

theorem inv_setPhase (h : Inv numberOf s) (hr : s.requests i = some r)
    (hp : phase.Seen r.token r.seen) :
    Inv numberOf (s.setPhase i r phase) := by
  have hget : ∀ j q, (s.setPhase i r phase).requests j = some q →
      (j = i ∧ q = { r with phase }) ∨ j ≠ i ∧ s.requests j = some q := by
    intro j q hq
    by_cases hj : j = i
    · subst hj
      have hself : (s.setPhase j r phase).requests j = some { r with phase } :=
        Function.update_self ..
      exact .inl ⟨rfl, Option.some.inj (hq.symm.trans hself)⟩
    · have hother : (s.setPhase i r phase).requests j = s.requests j := Function.update_of_ne hj ..
      exact .inr ⟨hj, hother.symm.trans hq⟩
  refine ⟨?_, ?_, ?_⟩
  · intro j q hq
    rcases hget j q hq with ⟨rfl, rfl⟩ | ⟨-, hq⟩
    · exact h.now j r hr
    · exact h.now j q hq
  · intro j q hq
    rcases hget j q hq with ⟨rfl, rfl⟩ | ⟨-, hq⟩
    · exact hp
    · exact h.seen j q hq
  · intro j p data g hg
    obtain ⟨q, hq, hcan⟩ := h.granted j p data g hg
    by_cases hj : j = i
    · subst hj
      obtain rfl := Option.some.inj (hq.symm.trans hr)
      exact ⟨{ q with phase }, Function.update_self .., hcan⟩
    · exact ⟨q, (Function.update_of_ne hj ..).trans hq, hcan⟩

theorem step_inv (hs : Step numberOf s a t) (h : Inv numberOf s) : Inv numberOf t := by
  cases a with
  | request i token =>
    simp only [Step, step, Option.ite_none_right_eq_some, Option.some.injEq] at hs
    obtain ⟨hnone, rfl⟩ := hs
    have hget : ∀ j q, Function.update s.requests i (some ⟨token.load, .fresh, [s.db]⟩) j = some q →
        q = ⟨token.load, .fresh, [s.db]⟩ ∨ s.requests j = some q := by
      intro j q hq
      by_cases hj : j = i
      · subst hj
        rw [Function.update_self] at hq
        exact .inl (Option.some.inj hq).symm
      · rw [Function.update_of_ne hj] at hq
        exact .inr hq
    refine ⟨?_, ?_, ?_⟩
    · intro j q hq
      rcases hget j q hq with rfl | hq
      · exact List.mem_cons_self
      · exact h.now j q hq
    · intro j q hq
      rcases hget j q hq with rfl | hq
      · trivial
      · exact h.seen j q hq
    · intro j p data g hg
      obtain ⟨q, hq, hcan⟩ := h.granted j p data g hg
      have hj : j ≠ i := by
        rintro rfl
        rw [hq] at hnone
        cases hnone
      exact ⟨q, (Function.update_of_ne hj ..).trans hq, hcan⟩
  | readUser i =>
    simp only [Step, step] at hs
    split at hs
    · next token seen hr =>
      cases hs
      rw [State.readUser]
      split
      · next found hfound => exact inv_setPhase h hr ⟨s.db, h.now i _ hr, hfound⟩
      · exact h
    · cases hs
  | readPassword i =>
    simp only [Step, step] at hs
    split at hs
    · next token found seen hr =>
      cases hs
      rw [State.readPassword]
      split
      · next loaded hloaded =>
        obtain ⟨db, hdb, hfound⟩ := h.seen i _ hr
        exact inv_setPhase h hr ⟨db, hdb, s.db, h.now i _ hr, found, hfound, hloaded⟩
      · exact inv_setPhase h hr trivial
    · cases hs
  | can i p data =>
    simp only [Step, step] at hs
    split at hs
    · next token loaded seen hr =>
      split at hs
      · next g hg =>
        cases hs
        refine ⟨h.now, h.seen, ?_⟩
        intro j q data' g' hmem
        rcases List.mem_cons.mp hmem with he | hmem
        · cases he
          obtain ⟨db, hdb, db', hdb', found, hfound, hloaded⟩ := h.seen i _ hr
          refine ⟨_, hr, db, hdb, db', hdb', ?_⟩
          exact Checked.bind_eq_ok.mpr ⟨found, hfound, Checked.bind_eq_ok.mpr ⟨loaded, hloaded, hg⟩⟩
        · exact h.granted j q data' g' hmem
      · cases hs
        exact h
    · cases hs
  | change db =>
    cases hs
    have hget : ∀ j q, (s.requests j).map (fun r => { r with seen := db :: r.seen }) = some q →
        ∃ r, s.requests j = some r ∧ { r with seen := db :: r.seen } = q :=
          fun j q hq => Option.map_eq_some_iff.mp hq
    refine ⟨?_, ?_, ?_⟩
    · intro j q hq
      obtain ⟨r, -, rfl⟩ := hget j q hq
      exact List.mem_cons_self
    · intro j q hq
      obtain ⟨r, hr, rfl⟩ := hget j q hq
      exact (h.seen j r hr).mono (List.subset_cons_self db r.seen)
    · intro j p data g hg
      obtain ⟨r, hr, db₁, hdb₁, db₂, hdb₂, hcan⟩ := h.granted j p data g hg
      refine ⟨{ r with seen := db :: r.seen }, Option.map_eq_some_iff.mpr ⟨r, hr, rfl⟩, db₁, ?_,
        db₂, ?_, hcan⟩
      · exact List.mem_cons_of_mem db hdb₁
      · exact List.mem_cons_of_mem db hdb₂

/-- In every run, whatever a request is granted its user had in the databases since the request
began: an account that was deleted, disabled or demoted before, or whose password was changed after
the token, gets nothing. -/
theorem granted_by_current (h : Run (Step numberOf) (initial db) xs s) {p : Permission}
    (hg : (i, p, data, g) ∈ s.granted) :
    ∃ r, s.requests i = some r ∧ ∃ db₁ ∈ r.seen, ∃ db₂ ∈ r.seen, ∃ user,
      Permitted numberOf db₁ db₂ r.token user g data p := by
  have hinv := h.invariant (I := Inv numberOf) (fun _ _ _ => step_inv) inv_initial
  obtain ⟨r, hr, db₁, hdb₁, db₂, hdb₂, hcan⟩ := hinv.granted i p data g hg
  exact ⟨r, hr, db₁, hdb₁, db₂, hdb₂, permitted_of_can hcan⟩

def viewer : User :=
  { id := 4, isDeleted := false, isDisabled := false, roles := [],
    permissions := some [("streams", "view")], positive := by decide }

/-- The viewer is disabled after its request has read it. -/
def lateRun : List Act :=
  [.request 0 ⟨some 4, some ["user"], some 100⟩, .readUser 0, .readPassword 0,
    .change ⟨[{ viewer with isDisabled := true }], fun _ => none⟩,
      .can 0 (.object .streams .list) none]

theorem granted_lateRun :
    ∃ s, Run (Step fun _ => none) (initial ⟨[viewer], fun _ => none⟩) lateRun s ∧ ∃ r,
    s.requests 0 = some r ∧
    ∃ db₁ ∈ r.seen, ∃ db₂ ∈ r.seen, ∃ user,
    Permitted (fun _ => none) db₁ db₂ r.token user [("streams", "view")] none
      (.object .streams .list) := by
  obtain ⟨s, hs, hg⟩ : ∃ s,
    lateRun.foldlM (step fun _ => none) (initial ⟨[viewer], fun _ => none⟩) = some s ∧
      s.granted = [(0, .object .streams .list, none, [("streams", "view")])] := ⟨_, rfl, rfl⟩
  have hrun := Run.of_foldlM hs
  exact ⟨s, hrun, granted_by_current hrun (hg ▸ List.mem_singleton_self _)⟩

end FloppyGuard.Accounts.Access
