import FloppyGuard.Accounts.Identity

/-! Over whole runs of sign-ins and account changes: whose account a login gets. -/
namespace FloppyGuard.Accounts.Identity

variable {s t : State} {a : Act} {xs ys : List Act} {i j u v : ℕ} {x y : String} {c : Login}
  {p : Phase}

/-! What one step does to the bindings, to the accounts and to one login. -/

/-- A step keeps the rows, and a new binding was pledged before. -/
theorem step_auth (h : Inv s) (hs : Step s a t) : (∀ r ∈ s.auth.rows, r ∈ t.auth.rows) ∧
    ∀ r ∈ t.auth.rows, r ∈ s.auth.rows ∨ r.type = .password ∨ ∃ x, r.type = .oidc x ∧
    Pledged s r.userId x := by
  have hsame : (∀ r ∈ s.auth.rows, r ∈ s.auth.rows) ∧ ∀ r ∈ s.auth.rows, r ∈ s.auth.rows ∨
    r.type = .password ∨
      ∃ x, r.type = .oidc x ∧ Pledged s r.userId x := ⟨fun _ hr => hr, fun _ hr => Or.inl hr⟩
  have hpassword : ∀ u, (∀ r ∈ s.auth.rows, r ∈ (addAuth s.auth u .password).rows) ∧
      ∀ r ∈ (addAuth s.auth u .password).rows, r ∈ s.auth.rows ∨ r.type = .password ∨
        ∃ x, r.type = .oidc x ∧ Pledged s r.userId x := by
    intro u
    refine ⟨fun r hr => Rows.mem_insert.mpr (Or.inl hr), fun r hr => ?_⟩
    rcases Rows.mem_insert.mp hr with hr | rfl
    · exact Or.inl hr
    · exact Or.inr (Or.inl rfl)
  cases hs with
  | markSso hc hp =>
    obtain ⟨hnew, hold, -⟩ := mem_mark h hc hp
    refine ⟨hold, fun r hr => ?_⟩
    rcases hnew r hr with hr | rfl
    · exact Or.inl hr
    · exact Or.inr (Or.inr ⟨_, rfl, Or.inr ⟨_, _, hc, by rw [hp]; rfl, rfl⟩⟩)
  | createAuth hj => exact hpassword _
  | passwordInserted hj => exact hpassword _
  | _ => exact hsame

theorem step_bound (h : Inv s) (hs : Step s a t) (hb : Bound s u x) : Bound t u x := by
  obtain ⟨r, hr, hu, hx⟩ := hb
  exact ⟨r, (step_auth h hs).1 r hr, hu, hx⟩

/-- The call a step belongs to. -/
def Act.owner : Act → Owner
  | lookup i .. | readBound i | findEmail i | insertUser i | readOidc i | readPassword i | readSso i
      | markSso i => .login i
  | create j .. | createInsert j | createAuth j | update j .. | updateCheck j | updatePatch j
      | delete j _
  | deletePatch j | setPassword j _ | passwordRead j | passwordWrite j => .admin j

theorem step_logins (hs : Step s a t) (hi : a.owner ≠ .login i) : t.logins i = s.logins i := by
  have hne : ∀ {i' : ℕ}, Owner.login i' ≠ .login i → i ≠ i' := fun hne he => hne (he ▸ rfl)
  cases hs with
  | lookup | readBound | findEmail | insertUser | readOidc | readPassword | readSso | markSso =>
    exact Function.update_of_ne (hne hi) ..
  | _ => rfl

theorem active_addUser {email : String} {disabled : Bool} (h : Active s u) :
    Active (s.setUsers (addUser s.users email disabled)) u := by
  obtain ⟨r, hr, hu⟩ := h
  exact ⟨r, Rows.mem_insert.mpr (Or.inl hr), hu⟩

theorem active_updateUser {id : ℕ} {email : Option String} {disabled : Option Bool} (h : Active s u)
    (hoff : id = u → disabled ≠ some true) :
    Active (s.setUsers (updateUser s.users id email disabled)) u := by
  obtain ⟨r, hr, hu, hd, hdis⟩ := h
  refine ⟨_, List.mem_map_of_mem hr, ?_⟩
  split
  · rename_i hid
    refine ⟨hu, hd, ?_⟩
    have hne := hoff ((of_decide_eq_true hid).symm.trans hu)
    rcases disabled with _ | _ | _
    · exact hdis
    · rfl
    · exact absurd rfl hne
  · exact ⟨hu, hd, hdis⟩

theorem active_deleteUser {id : ℕ} (h : Active s u) (hne : id ≠ u) :
    Active (s.setUsers (deleteUser s.users id)) u := by
  obtain ⟨r, hr, hu, hd⟩ := h
  refine ⟨_, List.mem_map_of_mem hr, ?_⟩
  split
  · rename_i hid
    exact absurd ((of_decide_eq_true hid).symm.trans hu) hne
  · exact ⟨hu, hd⟩

/-- No account is switched off under a login that searches for it. -/
theorem step_active (hs : Step s a t) (hok : Steady s a) (hu : Active s u)
    (hsearch : ∃ i c, s.logins i = some c ∧ Bound s u c.sub ∧ c.phase.searches = true) :
    Active t u := by
  have hno : ¬ Settled s u := by
    intro hsettled
    obtain ⟨i, c, hc, hb, hp⟩ := hsearch
    rw [hsettled i c hc hb] at hp
    cases hp
  cases hs with
  | insertUser | createInsert => exact active_addUser hu
  | updatePatch hj =>
    refine active_updateUser hu ?_
    rintro rfl rfl
    exact hno (hok _ _ hj)
  | deletePatch hj =>
    refine active_deleteUser hu ?_
    rintro rfl
    exact hno (hok _ hj)
  | _ => exact hu

/-! A login whose subject is bound to an account that can be signed in to. -/

/-- Where such a login can be. -/
def Phase.OnTrack (s : State) (u : ℕ) (x : String) : Phase → Prop
  | looked _ | missed => Active s u
  | found e => e.id = u ∧ e.isDisabled = false
  | compared e storedSub => e.id = u ∧ e.isDisabled = false ∧ storedSub = some x
  | linked e | marking e _ => e.id = u
  | returned v => v = u
  | creating | refused => False

def OnTrack (s : State) (i u : ℕ) (x : String) : Prop :=
  Bound s u x ∧ ∃ c, s.logins i = some c ∧ c.sub = x ∧ c.phase.OnTrack s u x

theorem Phase.OnTrack.mono (h : p.OnTrack s u x)
    (hactive : p.searches = true → Active s u → Active t u) :
    p.OnTrack t u x := by
  cases p with
  | looked _ | missed => exact hactive rfl h
  | _ => exact h

/-- The row of an account that can be signed in to. -/
theorem Active.row {r : User} (h : Active s u) (hr : r ∈ s.users.rows) (hu : r.id = u) :
    r.isDisabled = false := by
  obtain ⟨q, hq, hqu, -, hdis⟩ := h
  rw [Rows.eq_of_key_eq hr hq (hu.trans hqu.symm)]
  exact hdis

theorem Active.alive (h : Active s u) : Alive s u := by
  obtain ⟨r, hr, hu, hd, -⟩ := h
  exact ⟨r, hr, hu, hd⟩

theorem ssoLinkRefusal_self {password unverified : Bool} (h : x ≠ "") :
    ssoLinkRefusal (some x) password x unverified = none := by
  simp [ssoLinkRefusal, h]

theorem onTrack_own {u : ℕ} {x : String} (hs : Step s a t) (hok : Steady s a) (h : Inv s)
    (ha : a.owner = .login i)
    (ht : OnTrack s i u x) : ∃ c, t.logins i = some c ∧ c.sub = x ∧ c.phase.OnTrack t u x := by
  obtain ⟨hb, c, hc, rfl, htrack⟩ := ht
  have hmoved : ∀ p : Phase, Function.update s.logins i (some { c with phase := p }) i =
      some { c with phase := p } :=
    fun p => Function.update_self ..
  cases hs with
  | lookup hi =>
    cases ha
    rw [hc] at hi
    cases hi
  | readBound hc' hp =>
    cases ha
    cases hc.symm.trans hc'
    refine ⟨_, hmoved _, rfl, ?_⟩
    rw [hp] at htrack
    have hactive : Active s u := htrack
    cases hr : Option.bind _ (liveUser s.users) with
    | none => exact hactive
    | some r =>
      obtain ⟨v, rfl, hr⟩ := Option.bind_eq_some_iff.mp hr
      obtain ⟨hmem, rfl, hd⟩ := liveUser_spec hr
      have hphase := h.phases i c hc
      rw [PhaseOk, hp] at hphase
      have hru : r.id = u :=
        h.single _ _ _ ⟨r, hmem, rfl, hd⟩ hactive.alive (Or.inl (hphase _ rfl)) (Or.inl hb)
      simp only [Option.map_some, Option.getD_some, letIn, hactive.row hmem hru]
      exact hru
  | findEmail hc' hp =>
    cases ha
    cases hc.symm.trans hc'
    refine ⟨_, hmoved _, rfl, ?_⟩
    rw [hp] at htrack
    have hactive : Active s u := htrack
    obtain ⟨e, he, heu⟩ := (hok c hc).1 u hactive.alive (Or.inl hb)
    obtain ⟨hmem, -, -⟩ := emailUser_spec he
    rw [he]
    exact ⟨heu, hactive.row hmem heu⟩
  | insertUser hc' hp =>
    cases ha
    cases hc.symm.trans hc'
    rw [hp] at htrack
    exact htrack.elim
  | readOidc hc' hp =>
    cases ha
    cases hc.symm.trans hc'
    refine ⟨_, hmoved _, rfl, ?_⟩
    rw [hp] at htrack
    obtain ⟨rfl, hdis⟩ := htrack
    refine ⟨rfl, hdis, ?_⟩
    cases hstored : (oidcRow s.auth _).bind AuthRow.sub? with
    | none => exact absurd hb (oidcRow_none h hstored)
    | some y => rw [h.one _ _ _ (Or.inl (oidcRow_some hstored)) (Or.inl hb)]
  | readPassword hc' hp =>
    cases ha
    cases hc.symm.trans hc'
    refine ⟨_, hmoved _, rfl, ?_⟩
    rw [hp] at htrack
    obtain ⟨rfl, hdis, rfl⟩ := htrack
    simp only [decideLink, ssoLinkRefusal_self (h.loginSubs i c hc), letIn, hdis]
    rfl
  | readSso hc' hp =>
    cases ha
    cases hc.symm.trans hc'
    refine ⟨_, hmoved _, rfl, ?_⟩
    rw [hp] at htrack
    exact htrack
  | markSso hc' hp =>
    cases ha
    cases hc.symm.trans hc'
    refine ⟨_, hmoved _, rfl, ?_⟩
    rw [hp] at htrack
    exact htrack
  | _ => cases ha

theorem onTrack_step (hs : Step s a t) (hok : Steady s a) (h : Inv s) (ht : OnTrack s i u x) :
    OnTrack t i u x := by
  refine ⟨step_bound h hs ht.1, ?_⟩
  by_cases ha : a.owner = .login i
  · exact onTrack_own hs hok h ha ht
  · obtain ⟨hb, c, hc, rfl, htrack⟩ := ht
    refine ⟨c, (step_logins hs ha).trans hc, rfl, htrack.mono fun hp hu => ?_⟩
    exact step_active hs hok hu ⟨i, c, hc, hb, hp⟩

/-! An account with a password of its own. -/

def PasswordOnly (s : State) (u : ℕ) : Prop := HasPassword s u ∧ ∀ x, ¬ Bound s u x

theorem passwordOnly_step (hs : Step s a t) (h : Inv s) (hu : PasswordOnly s u) :
    PasswordOnly t u := by
  obtain ⟨⟨r, hr, hru, hrp⟩, hnone⟩ := hu
  obtain ⟨hold, hnew⟩ := step_auth h hs
  refine ⟨⟨r, hold r hr, hru, hrp⟩, ?_⟩
  rintro x ⟨q, hq, rfl, hx⟩
  rcases hnew q hq with hq | hq | ⟨y, -, hy⟩
  · exact hnone x ⟨q, hq, rfl, hx⟩
  · cases hx.symm.trans hq
  · obtain ⟨z, hz⟩ := h.password _ y ⟨r, hr, hru, hrp⟩ hy
    exact hnone z hz

theorem inv_init : Inv init := by
  have hnone : ∀ u x, ¬ Pledged init u x := by
    rintro u x (⟨r, hr, -⟩ | ⟨i, c, hc, -⟩)
    · cases hr
    · cases hc
  exact ⟨nofun, fun u x hb => absurd (Or.inl hb) (hnone u x), nofun, nofun, nofun, nofun, nofun,
    nofun,
    fun u x _ hx => absurd hx (hnone u x), fun u v x _ _ hx => absurd hx (hnone u x),
    fun u x _ hx => absurd hx (hnone u x), nofun⟩

/-! No call is stuck. -/

/-- The phases with the e-mail lock. -/
def Phase.locked : Phase → Bool
  | creating | found _ | compared .. => true
  | _ => false

def Admin.locked : Admin → Bool
  | creating .. | updating .. => true
  | _ => false

def Owner.Locked (s : State) : Owner → Prop
  | login i => ∃ c, s.logins i = some c ∧ c.phase.locked = true
  | admin j => ∃ d, s.admins j = some d ∧ d.locked = true

def LockHeld (s : State) : Prop := ∀ o, s.emailLock = some o → o.Locked s

theorem lockHeld_init : LockHeld init := nofun

theorem lockHeld_setLogin {o : Option Owner} {p : Phase} (h : LockHeld s)
    (hc : ∀ c', s.logins i = some c' → c'.phase.locked = true → o = s.emailLock → p.locked = true)
    (ho : ∀ owner, o = some owner → s.emailLock = o ∨ owner = .login i ∧ p.locked = true) :
    LockHeld ((s.setLogin i c p).setLock o) := by
  intro owner hown
  have hself : Function.update s.logins i (some { c with phase := p }) i =
      some { c with phase := p } :=
    Function.update_self ..
  rcases ho owner hown with he | ⟨rfl, hp⟩
  · have hold := h owner (he.trans hown)
    cases owner with
    | admin j => exact hold
    | login i' =>
      obtain ⟨c', hc', hp'⟩ := hold
      rcases eq_or_ne i' i with rfl | hne
      · exact ⟨_, hself, hc c' hc' hp' he.symm⟩
      · exact ⟨c', (Function.update_of_ne hne ..).trans hc', hp'⟩
  · exact ⟨_, hself, hp⟩

theorem lockHeld_setAdmin {o : Option Owner} {d : Option Admin} (h : LockHeld s)
    (hd : ∀ d', s.admins j = some d' → d'.locked = true → o = s.emailLock → ∃ d'', d = some d'' ∧
      d''.locked = true)
    (ho : ∀ owner, o = some owner → s.emailLock = o ∨ owner = .admin j ∧ ∃ d'', d = some d'' ∧
      d''.locked = true) :
    LockHeld ((s.setAdmin j d).setLock o) := by
  intro owner hown
  have hself : Function.update s.admins j d j = d := Function.update_self ..
  rcases ho owner hown with he | ⟨rfl, d', rfl, hp⟩
  · have hold := h owner (he.trans hown)
    cases owner with
    | login i => exact hold
    | admin j' =>
      obtain ⟨d', hd', hp'⟩ := hold
      rcases eq_or_ne j' j with rfl | hne
      · obtain ⟨d'', rfl, hp''⟩ := hd d' hd' hp' he.symm
        exact ⟨d'', hself, hp''⟩
      · exact ⟨d', (Function.update_of_ne hne ..).trans hd', hp'⟩
  · exact ⟨d', hself, hp⟩

/-- The e-mail lock is with a call that is under way. -/
theorem lockHeld_step (hs : Step s a t) (h : LockHeld s) : LockHeld t := by
  have hsame : ∀ {q : Owner → Prop} owner, s.emailLock = some owner → s.emailLock = s.emailLock ∨
      q owner :=
    fun _ _ => Or.inl rfl
  cases hs with
  | lookup hi =>
    refine lockHeld_setLogin h (fun c' hc' => ?_) hsame
    cases hi.symm.trans hc'
  | readBound hc hp | readSso hc hp | markSso hc hp =>
    refine lockHeld_setLogin h (fun c' hc' hl _ => ?_) hsame
    cases hc.symm.trans hc'
    rw [hp] at hl
    cases hl
  | readOidc hc hp => exact lockHeld_setLogin h (fun _ _ _ _ => rfl) hsame
  | findEmail hc hp hlock =>
    refine lockHeld_setLogin h (fun c' hc' hl _ => ?_) fun owner ho =>
      Or.inr ⟨(Option.some.inj ho).symm, ?_⟩
    · cases hc.symm.trans hc'
      rw [hp] at hl
      cases hl
    · cases emailUser s.users _ <;> rfl
  | create hj hlock =>
    refine lockHeld_setAdmin h (fun d' hd' => ?_) fun owner ho =>
      Or.inr ⟨(Option.some.inj ho).symm, _, rfl, rfl⟩
    cases hj.symm.trans hd'
  | update hj hlock =>
    refine lockHeld_setAdmin h (fun d' hd' => ?_) fun owner ho =>
      Or.inr ⟨(Option.some.inj ho).symm, _, rfl, rfl⟩
    cases hj.symm.trans hd'
  | updateChecked hj => exact lockHeld_setAdmin h (fun _ _ _ _ => ⟨_, rfl, rfl⟩) hsame
  | delete hj | setPassword hj =>
    refine lockHeld_setAdmin h (fun d' hd' => ?_) hsame
    cases hj.symm.trans hd'
  | createAuth hj | deletePatch hj | passwordRead hj | passwordPatched hj | passwordInserted hj =>
    refine lockHeld_setAdmin h (fun d' hd' hl => ?_) hsame
    cases hj.symm.trans hd'
    cases hl
  | _ => nofun

theorem owner_step {o : Owner} (h : o.Locked s) : ∃ a t, Step s a t ∧ a.owner = o := by
  cases o with
  | login i =>
    obtain ⟨c, hc, hp⟩ := h
    cases hph : c.phase with
    | creating => exact ⟨_, _, .insertUser hc hph, rfl⟩
    | found e => exact ⟨_, _, .readOidc hc hph, rfl⟩
    | compared e storedSub => exact ⟨_, _, .readPassword hc hph, rfl⟩
    | _ =>
      rw [hph] at hp
      cases hp
  | admin j =>
    obtain ⟨d, hd, hp⟩ := h
    cases d with
    | creating email disabled auth => exact ⟨_, _, .createInsert hd, rfl⟩
    | updating user email disabled checked =>
      cases checked with
      | false => exact ⟨_, _, .updateRefused hd, rfl⟩
      | true => exact ⟨_, _, .updatePatch hd, rfl⟩
    | _ => cases hp

/-- The login, or the call it waits for, can take its next step. -/
def CanGoOn (s : State) (i : ℕ) : Prop :=
  ∃ a t, Step s a t ∧ (a.owner = .login i ∨ s.emailLock = some a.owner)

theorem canGoOn (h : LockHeld s) (hc : s.logins i = some c) (ht : c.phase.OnTrack s u x) :
    c.phase = .returned u ∨ CanGoOn s i := by
  cases hp : c.phase with
  | looked bound => exact Or.inr ⟨_, _, .readBound hc hp, Or.inl rfl⟩
  | missed =>
    cases hl : s.emailLock with
    | none => exact Or.inr ⟨_, _, .findEmail hc hp hl, Or.inl rfl⟩
    | some o =>
      obtain ⟨a, t, hs, ha⟩ := owner_step (h o hl)
      exact Or.inr ⟨a, t, hs, Or.inr (hl.trans (ha ▸ rfl))⟩
  | creating => exact Or.inr ⟨_, _, .insertUser hc hp, Or.inl rfl⟩
  | found e => exact Or.inr ⟨_, _, .readOidc hc hp, Or.inl rfl⟩
  | compared e storedSub => exact Or.inr ⟨_, _, .readPassword hc hp, Or.inl rfl⟩
  | linked e => exact Or.inr ⟨_, _, .readSso hc hp, Or.inl rfl⟩
  | marking e row => exact Or.inr ⟨_, _, .markSso hc hp, Or.inl rfl⟩
  | returned v =>
    rw [hp] at ht
    obtain rfl : v = u := ht
    exact Or.inl rfl
  | refused =>
    rw [hp] at ht
    exact ht.elim

/-- The steps a login has left at most. -/
def Phase.left : Phase → ℕ
  | looked _ => 6
  | missed => 5
  | creating | found _ => 4
  | compared .. => 3
  | linked _ => 2
  | marking .. => 1
  | returned _ | refused => 0

theorem letIn_left (e : User) : (letIn e).left ≤ 2 := by
  unfold letIn
  split
  · exact Nat.zero_le _
  · exact Nat.le_refl _

theorem decideLink_left (c : Login) (e : User) (storedSub : Option String) (password : Bool) :
    (decideLink c e storedSub password).left ≤ 2 := by
  unfold decideLink
  split
  · exact Nat.zero_le _
  · exact letIn_left e

theorem step_left (hs : Step s a t) (hc : s.logins i = some c) :
    ∃ c', t.logins i = some c' ∧ c'.phase.left + (if a.owner = .login i then 1 else 0) ≤
      c.phase.left := by
  by_cases ha : a.owner = .login i
  · rw [if_pos ha]
    have hmoved : ∀ p : Phase, p.left + 1 ≤ c.phase.left →
        ∃ c', Function.update s.logins i (some { c with phase := p }) i = some c' ∧
          c'.phase.left + 1 ≤ c.phase.left :=
      fun p hp => ⟨_, Function.update_self .., hp⟩
    cases hs with
    | lookup hi =>
      cases ha
      cases hi.symm.trans hc
    | readBound hc' hp =>
      cases ha
      cases hc.symm.trans hc'
      refine hmoved _ ?_
      rw [hp]
      cases Option.bind _ (liveUser s.users) with
      | none => exact Nat.le_refl _
      | some r => exact Nat.le_trans (Nat.succ_le_succ (letIn_left r)) (by simp [Phase.left])
    | findEmail hc' hp =>
      cases ha
      cases hc.symm.trans hc'
      refine hmoved _ ?_
      rw [hp]
      cases emailUser s.users c.email <;> exact Nat.le_refl _
    | readPassword hc' hp =>
      cases ha
      cases hc.symm.trans hc'
      refine hmoved _ ?_
      rw [hp]
      exact Nat.succ_le_succ (decideLink_left ..)
    | insertUser hc' hp | readOidc hc' hp | readSso hc' hp | markSso hc' hp =>
      cases ha
      cases hc.symm.trans hc'
      refine hmoved _ ?_
      rw [hp]
      simp [Phase.left]
    | _ => cases ha
  · rw [if_neg ha]
    exact ⟨c, (step_logins hs ha).trans hc, Nat.le_refl _⟩

theorem run_left (h : Run (Guarded Step Steady) s xs t) (hc : s.logins i = some c) :
    xs.countP (fun a => a.owner = .login i) ≤ c.phase.left := by
  induction h generalizing c with
  | nil => exact Nat.zero_le _
  | cons hs _ ih =>
    obtain ⟨c', hc', hle⟩ := step_left hs.1 hc
    have hrest := ih hc'
    rw [List.countP_cons]
    simp only [decide_eq_true_eq]
    omega

/-! Runs. -/

theorem run_inv (h : Run (Guarded Step Steady) s xs t) (hs : Inv s) : Inv t := by
  have hstep : ∀ s a t, Step s a t → Steady s a → Inv s → Inv t :=
    fun _ _ _ hs hok hi => inv_step hs hok hi
  exact h.guarded_invariant hstep hs

theorem run_lockHeld (h : Run (Guarded Step Steady) s xs t) (hs : LockHeld s) : LockHeld t := by
  have hstep : ∀ s a t, Step s a t → LockHeld s → LockHeld t :=
    fun _ _ _ hs hl => lockHeld_step hs hl
  exact h.of_guarded.invariant hstep hs

/-- The rule for what a step keeps while the tables are in order. -/
theorem run_along {P : State → Prop} (hP : ∀ s a t, Step s a t → Steady s a → Inv s → P s → P t)
    (h : Run (Guarded Step Steady) s xs t) (hi : Inv s) (hs : P s) : P t := by
  have hstep : ∀ s a t, Step s a t → Steady s a → Inv s ∧ P s → Inv t ∧ P t :=
    fun s a t hst hok hp => ⟨inv_step hst hok hp.1, hP s a t hst hok hp.1 hp.2⟩
  exact (h.guarded_invariant hstep ⟨hi, hs⟩).2

theorem run_onTrack {email : String} {unverified : Bool} (hi : Inv s) (hl : LockHeld s)
    (h : Run (Guarded Step Steady) s (.lookup i email x unverified :: ys) t) (hb : Bound s u x)
    (hu : Active s u) :
    (Act.lookup i email x unverified :: ys).countP (fun a => a.owner = .login i) ≤ 7 ∧
      ∃ c, t.logins i = some c ∧ c.phase.OnTrack t u x ∧ (c.phase = .returned u ∨ CanGoOn t i) := by
  have hlt := run_lockHeld h hl
  cases h with
  | cons hs hys =>
    have hi' := inv_step hs.1 hs.2 hi
    obtain ⟨hs, -⟩ := hs
    cases hs with
    | lookup hnone hsub =>
      have hself : ∀ l : Login, Function.update s.logins i (some l) i = some l :=
        fun l => Function.update_self ..
      have hstart : OnTrack
          (s.setLogin i ⟨email, x, unverified, .missed⟩ (.looked (boundUser s.auth x))) i u x :=
        ⟨hb, _, hself _, rfl, hu⟩
      have hcount := run_left (i := i) hys (hself _)
      obtain ⟨-, c, hc, rfl, htrack⟩ := run_along (P := fun s => OnTrack s i u x)
        (fun _ _ _ hs hok hi ht => onTrack_step hs hok hi ht) hys hi' hstart
      refine ⟨?_, c, hc, htrack, canGoOn hlt hc htrack⟩
      rw [List.countP_cons, if_pos (by simp [Act.owner])]
      exact Nat.succ_le_succ hcount

/-- Where logins and changes do not cross, an account belongs to one subject, leads every login of
it to itself, and with a password only it is no login's. -/
theorem account_of_one_identity (hx : Run (Guarded Step Steady) init xs s)
    (hy : Run (Guarded Step Steady) s ys t) :
    (∀ u x, Bound s u x → Bound t u x ∧ (∀ y, Bound t u y → y = x) ∧
      ∀ i c, t.logins i = some c → c.phase = .returned u → c.sub = x) ∧
    (∀ i email unverified ys' u x, ys = .lookup i email x unverified :: ys' → Bound s u x →
      Active s u →
      ys.countP (fun a => a.owner = .login i) ≤ 7 ∧ ∃ c, t.logins i = some c ∧ c.phase ≠ .refused ∧
        (∀ v, c.phase = .returned v → v = u) ∧ (c.phase = .returned u ∨ CanGoOn t i)) ∧
    ∀ u, HasPassword s u → (∀ x, ¬ Bound s u x) → ∀ i c, t.logins i = some c →
    c.phase ≠ .returned u := by
  have hs : Inv s := run_inv hx inv_init
  have ht : Inv t := run_inv hy hs
  have hreturned : ∀ u i c, t.logins i = some c → c.phase = .returned u → Bound t u c.sub := by
    intro u i c hc hp
    have hok := ht.phases i c hc
    rw [PhaseOk, hp] at hok
    exact hok
  refine ⟨fun u x hb => ?_, ?_, ?_⟩
  · have hbt : Bound t u x := run_along (fun _ _ _ hs _ hi hb => step_bound hi hs hb) hy hs hb
    refine ⟨hbt, fun y hy => ht.one u y x (Or.inl hy) (Or.inl hbt), fun i c hc hp => ?_⟩
    exact ht.one u c.sub x (Or.inl (hreturned u i c hc hp)) (Or.inl hbt)
  · rintro i email unverified ys' u x rfl hb hu
    obtain ⟨hcount, c, hc, htrack, hgo⟩ := run_onTrack hs (run_lockHeld hx lockHeld_init) hy hb hu
    refine ⟨hcount, c, hc, ?_, ?_, hgo⟩
    · intro hp
      rw [hp] at htrack
      exact htrack
    · intro v hp
      rw [hp] at htrack
      exact htrack
  · intro u hpw hnone i c hc hp
    have hlast : PasswordOnly t u :=
      run_along (fun _ _ _ hs _ hi hu => passwordOnly_step hs hi hu) hy hs ⟨hpw, hnone⟩
    exact hlast.2 c.sub (hreturned u i c hc hp)

/-- The steps of a first login, and those of a login whose subject is known. -/
def firstLogin (i : ℕ) (email sub : String) : List Act :=
  [.lookup i email sub false, .readBound i, .findEmail i, .insertUser i, .readSso i, .markSso i]

def knownLogin (i : ℕ) (email sub : String) : List Act :=
  [.lookup i email sub false, .readBound i, .readSso i, .markSso i]

def localAccount (j : ℕ) (email : String) : List Act :=
  [.create j email false true, .createInsert j, .createAuth j]

theorem noHalfLink_single (hothers : ∀ i, i ≠ 0 → s.logins i = none) (h : s.logins 0 = some c)
    (hp : c.phase.holds = none) :
    NoHalfLink s u := by
  refine Or.inr fun i x => ?_
  rintro ⟨c', hc', hu, -⟩
  rcases eq_or_ne i 0 with rfl | hi
  · cases h.symm.trans hc'
    rw [hp] at hu
    cases hu
  · rw [hothers i hi] at hc'
    cases hc'

/-- An account of the provider and one with a password; the mail address changes at the provider. -/
theorem mail_changed : ∃ s t,
    Run (Guarded Step Steady) init
      (firstLogin 0 "eva@example.org" "eva" ++ localAccount 0 "max@example.org") s ∧
    Run (Guarded Step Steady) s (knownLogin 1 "eva@example.net" "eva") t ∧ Bound s 1 "eva" ∧
    Active s 1 ∧
    HasPassword s 2 ∧ (∀ x, ¬ Bound s 2 x) :=
  ⟨_, _, .cons ⟨.lookup rfl (by decide), trivial⟩ (.cons ⟨.readBound rfl rfl, trivial⟩
    (.cons ⟨.findEmail rfl rfl rfl, fun _ _ => ⟨nofun, nofun⟩⟩ (.cons ⟨.insertUser rfl rfl, trivial⟩
    (.cons ⟨.readSso rfl rfl, trivial⟩
      (.cons ⟨.markSso rfl rfl, trivial⟩ (.cons ⟨.create rfl rfl rfl, trivial⟩
    (.cons ⟨.createInsert rfl, trivial⟩
      (.cons ⟨.createAuth rfl, fun _ _ => noHalfLink_single (fun i hi => by
      simp [State.setLogin, State.setAdmin, State.setUsers, State.setAuth, State.setLock,
        Function.update_of_ne hi, init])
      rfl rfl⟩ (.nil _))))))))),
    .cons ⟨.lookup rfl (by decide), trivial⟩
      (.cons ⟨.readBound rfl rfl, trivial⟩ (.cons ⟨.readSso rfl rfl, trivial⟩
    (.cons ⟨.markSso rfl rfl, trivial⟩ (.nil _)))), ⟨_, .head _, rfl, rfl⟩,
      ⟨_, .head _, rfl, rfl, rfl⟩,
    ⟨_, .tail _ (.head _), rfl, rfl⟩, by
      rintro x ⟨r, hr, hu, hx⟩
      rcases List.mem_cons.mp hr with rfl | hr
      · cases hu
      · cases List.mem_singleton.mp hr
        cases hx⟩

theorem eva_signs_in :
    ∃ s t, Run Step init (firstLogin 0 "eva@example.org" "eva" ++ localAccount 0 "max@example.org")
      s ∧
    Run Step s (knownLogin 1 "eva@example.net" "eva") t ∧ Bound t 1 "eva" ∧
    (∀ y, Bound t 1 y → y = "eva") ∧
    (∃ c, t.logins 1 = some c ∧ c.phase ≠ .refused ∧ ∀ v, c.phase = .returned v → v = 1) ∧
    ∀ i c, t.logins i = some c → c.phase ≠ .returned 2 := by
  obtain ⟨s, t, hx, hy, hb, hu, hpw, hnone⟩ := mail_changed
  obtain ⟨hone, hlogin, hlocal⟩ := account_of_one_identity hx hy
  obtain ⟨-, c, hc, hp, hv, -⟩ := hlogin 1 _ _ _ 1 "eva" rfl hb hu
  exact ⟨s, t, hx.of_guarded, hy.of_guarded, (hone 1 "eva" hb).1, (hone 1 "eva" hb).2.1,
    ⟨c, hc, hp, hv⟩, hlocal 2 hpw hnone⟩

/-- An account is deleted and made anew; its owner comes back with another mail address and gets a
third one. -/
def thirdAccountActs : List Act :=
  firstLogin 0 "eva@example.org" "eva" ++ [.delete 0 1, .deletePatch 0] ++
    firstLogin 1 "eva@example.org" "eva"

theorem third_account : ∃ s t, Run Step init thirdAccountActs s ∧ Bound s 2 "eva" ∧ Active s 2 ∧
    Run Step s (firstLogin 2 "eva@example.net" "eva") t ∧ ∃ c, t.logins 2 = some c ∧
    c.phase = .returned 3 :=
  ⟨_, _, .cons (.lookup rfl (by decide)) (.cons (.readBound rfl rfl) (.cons (.findEmail rfl rfl rfl)
    (.cons (.insertUser rfl rfl)
      (.cons (.readSso rfl rfl) (.cons (.markSso rfl rfl) (.cons (.delete rfl rfl)
    (.cons (.deletePatch rfl) (.cons (.lookup rfl (by decide)) (.cons (.readBound rfl rfl)
    (.cons (.findEmail rfl rfl rfl) (.cons (.insertUser rfl rfl) (.cons (.readSso rfl rfl)
    (.cons (.markSso rfl rfl) (.nil _)))))))))))))), ⟨_, .tail _ (.head _), rfl, rfl⟩,
      ⟨_, .tail _ (.head _), rfl, rfl, rfl⟩,
    .cons (.lookup rfl (by decide)) (.cons (.readBound rfl rfl) (.cons (.findEmail rfl rfl rfl)
    (.cons (.insertUser rfl rfl) (.cons (.readSso rfl rfl) (.cons (.markSso rfl rfl) (.nil _)))))),
      _, rfl, rfl⟩

end FloppyGuard.Accounts.Identity
