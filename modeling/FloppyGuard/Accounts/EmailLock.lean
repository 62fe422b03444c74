import FloppyGuard.Accounts.Identity
import FloppyGuard.Lib.Serial
import FloppyGuard.Lib.Text

/-! `user-email-lock.js` and what `user.js` and `oidc.js` do under it: query by query, for any
number of requests. -/
namespace FloppyGuard.Accounts.EmailLock

open Identity Serial

/-- `toLowerCase`, of which only this matters: an address in its form is left as it is. -/
structure LowerCase where
  toLowerCase : List Char → List Char
  toLowerCase_trim : ∀ s, toLowerCase (Text.trim (toLowerCase s)) = Text.trim (toLowerCase s)

/-- `email.toLowerCase().trim()` -/
def LowerCase.normalize (lc : LowerCase) (email : String) : String :=
  String.ofList (Text.trim (lc.toLowerCase email.toList))

structure World where
  users : UserTable
  auth : AuthTable

/-- The query a section waits for, with what the section knows by then. -/
inductive Section
  | createCheck (email : String) (disabled : Bool)
  | createInsert (email : String) (disabled : Bool)
  | createFetch
  | updateGet (requester id : ℕ) (email : Option String) (disabled : Option Bool)
  | updateSources (id : ℕ) (user : User) (email : Option String) (disabled : Option Bool)
  | updateCheck (id : ℕ) (user : User) (email : String) (disabled : Option Bool)
  | updatePatch (user : User) (email : Option String) (disabled : Option Bool)
  | loginFind (email sub : String) (unverified : Bool)
  | loginOidc (found : User) (sub : String) (unverified : Bool)
  | loginPassword (found : User) (storedSub : Option String) (sub : String) (unverified : Bool)
  | loginAudit
  | loginInsert (email : String)
  | loginFetch
  | loginPermissions

/-- The identity check in front of the patch. -/
def patchOf (id : ℕ) (user : User) (email : Option String) (disabled : Option Bool) :
    Option Section :=
  if user.id = id then some (.updatePatch user email disabled) else none

/-- The answer to a query and the query after it; a section without one has ended. -/
def query (lc : LowerCase) (w : World) : Section → World × Option Section
  | .createCheck email disabled =>
    (w, if isEmailAvailable w.users (lc.normalize email) none then
      some (.createInsert email disabled) else none)
  | .createInsert email disabled =>
    ({ w with users := addUser w.users email disabled }, some .createFetch)
  | .createFetch => (w, none)
  | .updateGet requester id email disabled =>
    (w, (liveUser w.users (if id = 0 then requester else id)).map fun user =>
      .updateSources id user email disabled)
  | .updateSources id user email disabled =>
    (w, match email.map lc.normalize with
      | none => patchOf id user none disabled
      | some email =>
        if user.email ≠ email then some (.updateCheck id user email disabled)
        else patchOf id user (some email) disabled)
  | .updateCheck id user email disabled =>
    (w, if isEmailAvailable w.users (lc.normalize email) (some id) then
      patchOf id user (some email) disabled else none)
  | .updatePatch user email disabled =>
    ({ w with users := updateUser w.users user.id email disabled }, none)
  | .loginFind email sub unverified =>
    (w, some (match emailUser w.users email with
      | none => .loginInsert email
      | some found => .loginOidc found sub unverified))
  | .loginOidc found sub unverified =>
    (w, some (.loginPassword found ((oidcRow w.auth found.id).bind AuthRow.sub?) sub unverified))
  | .loginPassword found storedSub sub unverified =>
    (w, if (ssoLinkRefusal storedSub (hasPassword w.auth found.id) sub unverified).isSome then
      some .loginAudit else none)
  | .loginAudit => (w, none)
  | .loginInsert email => ({ w with users := addUser w.users email false }, some .loginFetch)
  | .loginFetch => (w, some .loginPermissions)
  | .loginPermissions => (w, none)

/-- A query can fail, before or after it has taken effect: then the section rejects. -/
def Does (lc : LowerCase) (w : World) (c : Section) (w' : World) (next : Option Section) : Prop :=
  (w', next) = query lc w c ∨ (w', next) = (w, none) ∨ (w', next) = ((query lc w c).1, none)

/-- `create` brings the address into its form before it takes the lock, `update` in it. -/
def create (lc : LowerCase) (email : String) (disabled : Bool) : Section :=
  .createCheck (lc.normalize email) disabled

def update (requester id : ℕ) (email : Option String) (disabled : Option Bool) : Section :=
  .updateGet requester id email disabled

def ensureUser (email sub : String) (unverified : Bool) : Section := .loginFind email sub unverified

inductive Enters (lc : LowerCase) : Section → Prop
  | create (email : String) (disabled : Bool) : Enters lc (create lc email disabled)
  | update (requester id : ℕ) (email : Option String) (disabled : Option Bool) : Enters lc
      (update requester id email disabled)
  | ensureUser {email : String} (sub : String) (unverified : Bool) : lc.normalize email = email →
      Enters lc (ensureUser email sub unverified)

/-- What goes on outside the lock: accounts are deleted, passwords and bindings change. -/
inductive Other : World → World → Prop
  | delete (w : World) (id : ℕ) : Other w { w with users := deleteUser w.users id }
  | auth (w : World) (auth : AuthTable) : Other w { w with auth := auth }

abbrev Step (lc : LowerCase) := Serial.Step (Enters lc) (Does lc) Other

/-- An address belongs to one account. -/
def Unique (users : UserTable) : Prop :=
  ∀ u ∈ users.rows, ∀ v ∈ users.rows, u.isDeleted = false → v.isDeleted = false →
  u.email = v.email → u = v

def Normal (lc : LowerCase) (users : UserTable) : Prop :=
  ∀ u ∈ users.rows, lc.normalize u.email = u.email

/-- No account but this one has the address. -/
def Owns (users : UserTable) (email : String) (id : Option ℕ) : Prop :=
  ∀ u ∈ users.rows, u.isDeleted = false → u.email = email → some u.id = id

variable {lc : LowerCase} {users : UserTable} {w w' : World} {c c' : Section}
  {next : Option Section} {email : String} {id : ℕ}
  {o : Option ℕ} {user u : User}

/-! The form of an address. -/

theorem normalize_normalize (email : String) :
    lc.normalize (lc.normalize email) = lc.normalize email := by
  rw [LowerCase.normalize, LowerCase.normalize, String.toList_ofList, lc.toLowerCase_trim,
    Text.trim_trim]

/-! The queries. -/

theorem owns_of_available (h : isEmailAvailable users email o = true) : Owns users email o := by
  intro u hu hlive hemail
  have hrow := List.all_eq_true.mp h u hu
  by_contra hne
  simp [hemail, hlive, hne] at hrow

theorem owns_of_missing (h : emailUser users email = none) : Owns users email none := by
  intro u hu hlive hemail
  have hrow := List.find?_eq_none.mp h u hu
  simp [hemail, hlive] at hrow

theorem owns_self (h : Unique users) (hu : user ∈ users.rows) (hlive : user.isDeleted = false) :
    Owns users user.email (some user.id) := by
  intro v hv hvlive hemail
  rw [h v hv user hu hvlive hlive hemail]

theorem unique_insert {disabled : Bool} (h : Unique users) (ho : Owns users email none) :
    Unique (addUser users email disabled) := by
  intro u hu v hv hulive hvlive hemail
  rcases Rows.mem_insert.mp hu with hu | rfl
  · rcases Rows.mem_insert.mp hv with hv | rfl
    · exact h u hu v hv hulive hvlive hemail
    · cases ho u hu hulive hemail
  · rcases Rows.mem_insert.mp hv with hv | rfl
    · cases ho v hv hvlive hemail.symm
    · rfl

theorem mem_updateUser {email : Option String} {disabled : Option Bool}
    (hu : u ∈ (updateUser users id email disabled).rows) :
    ∃ v ∈ users.rows, u.id = v.id ∧ u.isDeleted = v.isDeleted ∧ u.email = if v.id = id then
      email.getD v.email else v.email := by
  obtain ⟨v, hv, rfl⟩ := List.mem_map.mp hu
  refine ⟨v, hv, ?_⟩
  by_cases hid : v.id = id
  · simp [hid]
  · simp [hid]

theorem unique_update {email : Option String} {disabled : Option Bool} (h : Unique users)
    (ho : ∀ e ∈ email, Owns users e (some id)) : Unique (updateUser users id email disabled) := by
  intro u hu v hv hulive hvlive hemail
  obtain ⟨u', hu', huid, hud, hue⟩ := mem_updateUser hu
  obtain ⟨v', hv', hvid, hvd, hve⟩ := mem_updateUser hv
  rw [hud] at hulive
  rw [hvd] at hvlive
  -- the one whose address is set has the address alone
  have hsame : u'.id = v'.id := by
    rw [hue, hve] at hemail
    cases email with
    | none =>
      simp only [Option.getD_none, ite_self] at hemail
      rw [h u' hu' v' hv' hulive hvlive hemail]
    | some e =>
      have ho := ho e rfl
      rw [Option.getD_some, Option.getD_some] at hemail
      by_cases hu : u'.id = id
      · by_cases hv : v'.id = id
        · rw [hu, hv]
        · rw [if_pos hu, if_neg hv] at hemail
          exact absurd (Option.some.inj (ho v' hv' hvlive hemail.symm)) hv
      · rw [if_neg hu] at hemail
        by_cases hv : v'.id = id
        · rw [if_pos hv] at hemail
          exact absurd (Option.some.inj (ho u' hu' hulive hemail)) hu
        · rw [if_neg hv] at hemail
          rw [h u' hu' v' hv' hulive hvlive hemail]
  exact Rows.eq_of_key_eq hu hv (huid.trans (hsame.trans hvid.symm))

theorem mem_deleteUser (hu : u ∈ (deleteUser users id).rows) (hlive : u.isDeleted = false) :
    u ∈ users.rows := by
  obtain ⟨v, hv, rfl⟩ := List.mem_map.mp hu
  split at hlive
  · cases hlive
  · next hne =>
    rw [if_neg hne]
    exact hv

/-! One account for an address. -/

/-- What a section relies on between two queries. -/
def Knows (lc : LowerCase) (w : World) : Section → Prop
  | .createCheck email _ => lc.normalize email = email
  | .createInsert email _ => Owns w.users email none
  | .updateSources _ user _ _ => Owns w.users user.email (some user.id)
  | .updateCheck _ _ email _ => lc.normalize email = email
  | .updatePatch user email _ => ∀ e ∈ email, Owns w.users e (some user.id)
  | .loginInsert email => Owns w.users email none
  | _ => True

theorem knows_patchOf {email : Option String} {disabled : Option Bool}
    (h : ∀ e ∈ email, Owns w.users e (some id))
    (hc : c ∈ patchOf id user email disabled) : Knows lc w c := by
  rw [patchOf] at hc
  split at hc
  · next he =>
    subst he
    cases hc
    exact h
  · cases hc

theorem query_unique (hw : Unique w.users) (hc : Knows lc w c) : Unique (query lc w c).1.users := by
  cases c with
  | createInsert email disabled => exact unique_insert hw hc
  | updatePatch user email disabled => exact unique_update hw hc
  | loginInsert email => exact unique_insert hw hc
  | _ => exact hw

theorem query_knows (hw : Unique w.users) (hc : Knows lc w c) (hnext : c' ∈ (query lc w c).2) :
    Knows lc (query lc w c).1 c' := by
  cases c with
  | createCheck email disabled =>
    simp only [query] at hnext ⊢
    split at hnext
    · next havailable =>
      cases hnext
      have := owns_of_available havailable
      rwa [show lc.normalize email = email from hc] at this
    · cases hnext
  | createInsert email disabled =>
    cases hnext
    trivial
  | updateGet requester id email disabled =>
    obtain ⟨user, huser, rfl⟩ := Option.map_eq_some_iff.mp hnext
    have hmem := List.mem_of_find?_eq_some huser
    have hlive := List.find?_some huser
    simp only [Bool.and_eq_true, Bool.not_eq_true'] at hlive
    exact owns_self hw hmem hlive.2
  | updateSources id user email disabled =>
    simp only [query] at hnext ⊢
    split at hnext
    · exact knows_patchOf (fun e he => by cases he) hnext
    · next e he =>
      split at hnext
      · cases hnext
        obtain ⟨raw, -, rfl⟩ := Option.map_eq_some_iff.mp he
        exact normalize_normalize raw
      · next hsame =>
        -- its own address
        rw [patchOf] at hnext
        split at hnext
        · cases hnext
          intro e' he'
          cases he'
          rw [← not_not.mp hsame]
          exact hc
        · cases hnext
  | updateCheck id user email disabled =>
    simp only [query] at hnext ⊢
    split at hnext
    · next havailable =>
      refine knows_patchOf (fun e he => ?_) hnext
      cases he
      have := owns_of_available havailable
      rwa [show lc.normalize email = email from hc] at this
    · cases hnext
  | loginFind email sub unverified =>
    simp only [query, Option.mem_def, Option.some.injEq] at hnext
    cases hfound : emailUser w.users email with
    | none =>
      rw [hfound] at hnext
      subst hnext
      exact owns_of_missing hfound
    | some found =>
      rw [hfound] at hnext
      subst hnext
      trivial
  | loginOidc found sub unverified =>
    cases hnext
    trivial
  | loginPassword found storedSub sub unverified =>
    simp only [query] at hnext
    split at hnext
    · cases hnext
      trivial
    · cases hnext
  | loginInsert email =>
    cases hnext
    trivial
  | loginFetch =>
    cases hnext
    trivial
  | createFetch => cases hnext
  | updatePatch user email disabled => cases hnext
  | loginAudit => cases hnext
  | loginPermissions => cases hnext

theorem Owns.delete (h : Owns users email o) : Owns (deleteUser users id) email o :=
  fun u hu hlive => h u (mem_deleteUser hu hlive) hlive

/-- A query that fails leads to nothing the section could rely on. -/
theorem does_keeps {I : World → Prop} {J : World → Section → Prop} (hw : I w)
    (hq : I (query lc w c).1)
    (hnext : ∀ c' ∈ (query lc w c).2, J (query lc w c).1 c') (h : Does lc w c w' next) :
    I w' ∧ ∀ c' ∈ next, J w' c' := by
  rcases h with h | h | h
  · obtain rfl : w' = (query lc w c).1 := congrArg Prod.fst h
    obtain rfl : next = (query lc w c).2 := congrArg Prod.snd h
    exact ⟨hq, hnext⟩
  · obtain ⟨rfl, rfl⟩ := Prod.mk.inj h
    exact ⟨hw, fun c' hc' => by cases hc'⟩
  · obtain ⟨rfl, rfl⟩ := Prod.mk.inj h
    exact ⟨hq, fun c' hc' => by cases hc'⟩

theorem rule_unique : Rule (Enters lc) (Does lc) Other (fun w => Unique w.users) (Knows lc) where
  first := by
    intro w c _ hc
    cases hc with
    | create email disabled => exact normalize_normalize email
    | update requester id email disabled => trivial
    | ensureUser sub unverified h => trivial
  act := fun w c w' next hw hc => does_keeps (I := fun w => Unique w.users) hw (query_unique hw hc)
    fun c' hc' => query_knows hw hc hc'
  other := by
    intro w w' hw hother
    cases hother with
    | delete id =>
      refine ⟨fun u hu v hv hulive hvlive =>
        hw u (mem_deleteUser hu hulive) v (mem_deleteUser hv hvlive) hulive hvlive, ?_⟩
      intro c hc
      cases c with
      | createInsert email disabled => exact hc.delete
      | updateSources id user email disabled => exact hc.delete
      | updatePatch user email disabled => exact fun e he => (hc e he).delete
      | loginInsert email => exact hc.delete
      | _ => exact hc
    | auth auth => exact ⟨hw, fun c hc => hc⟩

/-! The form of the stored addresses. -/

/-- The address a section is about to store. -/
def Formed (lc : LowerCase) (_ : World) : Section → Prop
  | .createCheck email _ => lc.normalize email = email
  | .createInsert email _ => lc.normalize email = email
  | .updateCheck _ _ email _ => lc.normalize email = email
  | .updatePatch _ email _ => ∀ e ∈ email, lc.normalize e = e
  | .loginFind email _ _ => lc.normalize email = email
  | .loginInsert email => lc.normalize email = email
  | _ => True

theorem normal_insert {disabled : Bool} (h : Normal lc users) (he : lc.normalize email = email) :
    Normal lc (addUser users email disabled) := by
  intro u hu
  rcases Rows.mem_insert.mp hu with hu | rfl
  · exact h u hu
  · exact he

theorem normal_update {email : Option String} {disabled : Option Bool} (h : Normal lc users)
    (he : ∀ e ∈ email, lc.normalize e = e) : Normal lc (updateUser users id email disabled) := by
  intro u hu
  obtain ⟨v, hv, -, -, hemail⟩ := mem_updateUser hu
  rw [hemail]
  split
  · cases email with
    | none => exact h v hv
    | some e => exact he e rfl
  · exact h v hv

theorem normal_delete (h : Normal lc users) : Normal lc (deleteUser users id) := by
  intro u hu
  obtain ⟨v, hv, rfl⟩ := List.mem_map.mp hu
  split
  · exact h v hv
  · exact h v hv

theorem query_normal (hw : Normal lc w.users) (hc : Formed lc w c) :
    Normal lc (query lc w c).1.users := by
  cases c with
  | createInsert email disabled => exact normal_insert hw hc
  | updatePatch user email disabled => exact normal_update hw hc
  | loginInsert email => exact normal_insert hw hc
  | _ => exact hw

theorem formed_patchOf {email : Option String} {disabled : Option Bool}
    (h : ∀ e ∈ email, lc.normalize e = e)
    (hc : c ∈ patchOf id user email disabled) : Formed lc w c := by
  rw [patchOf] at hc
  split at hc
  · cases hc
    exact h
  · cases hc

theorem query_formed (hc : Formed lc w c) (hnext : c' ∈ (query lc w c).2) :
    Formed lc (query lc w c).1 c' := by
  cases c with
  | createCheck email disabled =>
    simp only [query] at hnext
    split at hnext
    · cases hnext
      exact hc
    · cases hnext
  | updateGet requester id email disabled =>
    obtain ⟨user, -, rfl⟩ := Option.map_eq_some_iff.mp hnext
    trivial
  | updateSources id user email disabled =>
    simp only [query] at hnext
    split at hnext
    · exact formed_patchOf (fun e he => by cases he) hnext
    · next e he =>
      obtain ⟨raw, -, rfl⟩ := Option.map_eq_some_iff.mp he
      split at hnext
      · cases hnext
        exact normalize_normalize raw
      · refine formed_patchOf (fun e he => ?_) hnext
        cases he
        exact normalize_normalize raw
  | updateCheck id user email disabled =>
    simp only [query] at hnext
    split at hnext
    · refine formed_patchOf (fun e he => ?_) hnext
      cases he
      exact hc
    · cases hnext
  | loginFind email sub unverified =>
    simp only [query, Option.mem_def, Option.some.injEq] at hnext
    split at hnext
    · subst hnext
      exact hc
    · subst hnext
      trivial
  | loginOidc found sub unverified =>
    cases hnext
    trivial
  | loginPassword found storedSub sub unverified =>
    simp only [query] at hnext
    split at hnext
    · cases hnext
      trivial
    · cases hnext
  | createInsert email disabled =>
    cases hnext
    trivial
  | loginInsert email =>
    cases hnext
    trivial
  | loginFetch =>
    cases hnext
    trivial
  | createFetch => cases hnext
  | updatePatch user email disabled => cases hnext
  | loginAudit => cases hnext
  | loginPermissions => cases hnext

theorem rule_normal :
    Rule (Enters lc) (Does lc) Other (fun w => Normal lc w.users) (Formed lc) where
  first := by
    intro w c _ hc
    cases hc with
    | create email disabled => exact normalize_normalize email
    | update requester id email disabled => trivial
    | ensureUser sub unverified h => exact h
  act := fun w c w' next hw hc => does_keeps (I := fun w => Normal lc w.users) hw
    (query_normal hw hc) fun c' hc' => query_formed hc hc'
  other := by
    intro w w' hw hother
    cases hother with
    | delete id => exact ⟨normal_delete hw, fun c hc => by cases c <;> exact hc⟩
    | auth auth => exact ⟨hw, fun c hc => by cases c <;> exact hc⟩

/-! Runs. -/

/-- An address belongs to one account, whatever order the queries take and whichever of them fail.
-/
theorem one_account_per_email {w : World} {xs : List (Act Section)} {t : State World Section}
    (h : Run (Step lc) ⟨w, []⟩ xs t)
    (hw : Unique w.users) : Unique t.world.users ∧ (Normal lc w.users → Normal lc t.world.users) :=
  ⟨(rule_unique.run h hw).world, fun hn => (rule_normal.run h hn).world⟩

theorem toLower_toLower (c : Char) : c.toLower.toLower = c.toLower := by
  unfold Char.toLower
  by_cases h : c.val ≥ 'A'.val ∧ c.val ≤ 'Z'.val
  · -- a capital letter becomes one above Z
    rw [dif_pos h, dif_neg]
    simp only [ge_iff_le, UInt32.le_iff_toNat_le] at h ⊢
    have hA : (65 : ℕ) ≤ c.val.toNat := h.1
    have hZ : c.val.toNat ≤ (90 : ℕ) := h.2
    intro hagain
    have hle : (c.val + ('a'.val - 'A'.val)).toNat ≤ (90 : ℕ) := hagain.2
    rw [UInt32.toNat_add] at hle
    have hshift : ('a'.val - 'A'.val).toNat = 32 := rfl
    omega
  · rw [dif_neg h, dif_neg h]

/-- Addresses of ASCII characters. -/
def ascii : LowerCase where
  toLowerCase s := s.map Char.toLower
  toLowerCase_trim s := by
    refine (List.map_congr_left fun c hc => ?_).trans (List.map_id _)
    obtain ⟨d, -, rfl⟩ := List.mem_map.mp (Text.mem_of_mem_trim hc)
    exact toLower_toLower d

/-- Two first logins and a new account with one address; the last section rejects. -/
def threeAtOnce : List (Act Section) :=
  [.call (ensureUser "eva@example.org" "eva" false), .call (create ascii " Eva@Example.org" false),
    .call (ensureUser "eva@example.org" "eve" false), .start 0, .move 0, .move 0, .move 0, .move 0,
      .start 1, .move 1, .start 2, .move 2]

theorem run_threeAtOnce : ∃ t, Run (Step ascii) ⟨⟨.empty, .empty⟩, []⟩ threeAtOnce t :=
  ⟨_, .cons (.call (.ensureUser "eva" false (by decide +kernel)))
    (.cons (.call (.create " Eva@Example.org" false))
    (.cons (.call (.ensureUser "eve" false (by decide +kernel)))
      (.cons (.start rfl free_zero) (.cons (.move rfl (.inl rfl))
    (.cons (.move rfl (.inl rfl))
      (.cons (.move rfl (.inl rfl))
        (.cons (.move rfl (.inl rfl)) (.cons (.start rfl (free_succ rfl))
    (.cons (.move rfl (.inl rfl))
      (.cons (.start rfl (free_succ rfl)) (.cons (.move rfl (.inr (.inl rfl))) (.nil _))))))))))))⟩

theorem three_at_once :
    ∃ t, Run (Step ascii) ⟨⟨.empty, .empty⟩, []⟩ threeAtOnce t ∧ Unique t.world.users ∧
    (Normal ascii Rows.empty → Normal ascii t.world.users) := by
  obtain ⟨t, ht⟩ := run_threeAtOnce
  exact ⟨t, ht, one_account_per_email ht fun u hu => by cases hu⟩

end FloppyGuard.Accounts.EmailLock
