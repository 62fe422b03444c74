import FloppyGuard.Lib.Run
import Mathlib.Data.List.Nodup
import Mathlib.Logic.Function.Basic

/-! `2fa.js` and `setPassword` on the password row of one user: each call reads the `meta` column
and writes all of it back later. Every query is a step of its own. -/
namespace FloppyGuard.Accounts

/-- The `meta` column of the password row; a backup code goes by its hash. -/
structure AuthMeta where
  pendingSecret : Option String
  secret : Option String
  enabled : Bool
  backupCodes : List ℕ
  passwordChangedAt : Option ℕ

/-- `assertTokenNotRevoked` -/
def tokenRevoked (row : AuthMeta) (iat : ℕ) : Bool :=
  let changedAt := row.passwordChangedAt.getD 0
  0 < changedAt && iat < changedAt

def backupCodeCount : ℕ := 8

namespace TwoFactor

/-- A call with what it has read; the code of `enabling`, `disabling` and `regenerating` was
verified against the secret of the copy. -/
inductive Call
  | setup (copy : AuthMeta) (secret : String)
  | enabling (copy : AuthMeta) (secret : String) (codes : List ℕ)
  | disabling (copy : AuthMeta)
  | regenerating (copy : AuthMeta) (codes : List ℕ)
  /-- `verifyForLogin` has found the code in its copy -/
  | matched (code : ℕ)
  /-- the row is read again, under its lock -/
  | locked (fresh : AuthMeta) (code : ℕ)
  | password (copy : AuthMeta) (changedAt : ℕ)

structure State where
  row : AuthMeta
  /-- whole seconds -/
  now : ℕ
  lock : Option ℕ
  calls : ℕ → Option Call
  /-- no hash from here on was generated so far -/
  nextCode : ℕ
  /-- the backup codes that logins have accepted -/
  accepted : List ℕ
  /-- every backup code that has left the row -/
  gone : List ℕ

/-- The read of each call, with the result of `verifyTotp` where it checks a code; `write` is its
patch. -/
inductive Act
  | tick (seconds : ℕ)
  | startSetup (c : ℕ) (secret : String)
  | enable (c : ℕ) (valid : Bool)
  | disable (c : ℕ) (valid : Bool)
  | regenerateBackupCodes (c : ℕ) (valid : Bool)
  | verifyForLogin (c code : ℕ)
  | lockRow (c : ℕ)
  | setPassword (c : ℕ)
  | write (c : ℕ)

/-- The column a call writes. -/
def Call.written : Call → Option AuthMeta
  | .setup copy secret => some { copy with pendingSecret := some secret }
  | .enabling copy secret codes =>
    some { copy with
        secret := some secret, enabled := true, backupCodes := codes, pendingSecret := none }
  | .disabling copy => some { copy with secret := none, enabled := false, backupCodes := [] }
  | .regenerating copy codes => some { copy with backupCodes := codes }
  | .matched _ => none
  | .locked fresh code => some { fresh with backupCodes := fresh.backupCodes.filter (· ≠ code) }
  | .password copy changedAt => some { copy with passwordChangedAt := some changedAt }

def Call.newCodes : Call → List ℕ
  | .enabling _ _ codes | .regenerating _ codes => codes
  | _ => []

def Call.acceptedCode : Call → List ℕ
  | .locked _ code => [code]
  | _ => []

namespace State

variable (s : State)

def begin (c : ℕ) (call : Call) : State := { s with calls := Function.update s.calls c (some call) }

def finish (c : ℕ) : State := { s with calls := Function.update s.calls c none }

/-- `generateBackupCodes` -/
def freshCodes : List ℕ := List.range' s.nextCode backupCodeCount

def generate (c : ℕ) (call : Call) : State :=
  { s.begin c call with nextCode := s.nextCode + backupCodeCount }

def store (c : ℕ) (call : Call) (new : AuthMeta) : State :=
  { s.finish c with
    row := new
    lock := none
    accepted := s.accepted ++ call.acceptedCode
    gone := s.gone ++ s.row.backupCodes.filter (· ∉ new.backupCodes) }

end State

def step (s : State) : Act → Option State
  | .tick seconds => some { s with now := s.now + seconds }
  | .startSetup c secret =>
    if (s.calls c).isNone ∧ !s.row.enabled then some (s.begin c (.setup s.row secret)) else none
  | .enable c valid =>
    match s.row.pendingSecret with
    | some secret =>
      if (s.calls c).isNone ∧ secret ≠ "" ∧ valid then
        some (s.generate c (.enabling s.row secret s.freshCodes)) else none
    | none => none
  | .disable c valid =>
    if (s.calls c).isNone ∧ s.row.enabled ∧ valid then some (s.begin c (.disabling s.row)) else none
  | .regenerateBackupCodes c valid =>
    if (s.calls c).isNone ∧ s.row.enabled ∧ s.row.secret.any (· ≠ "") ∧ valid then
      some (s.generate c (.regenerating s.row s.freshCodes))
    else none
  | .verifyForLogin c code =>
    if (s.calls c).isNone ∧ s.row.secret.any (· ≠ "") ∧ code ∈ s.row.backupCodes then
      some (s.begin c (.matched code))
    else none
  | .lockRow c =>
    match s.calls c with
    | some (.matched code) =>
      if s.lock.isSome then none
      else if code ∈ s.row.backupCodes then
        some { s.begin c (.locked s.row code) with lock := some c }
      else some (s.finish c)
    | _ => none
  | .setPassword c => if (s.calls c).isNone then some (s.begin c (.password s.row s.now)) else none
  | .write c =>
    match s.calls c with
    | some call =>
      -- a patch waits for the lock of another transaction
      if s.lock.any (· ≠ c) then none else call.written.map (s.store c call)
    | none => none

/-! What a step can do. -/

inductive Step (s : State) : Act → State → Prop
  | tick {n} : Step s (.tick n) { s with now := s.now + n }
  | startSetup {c secret} (h : s.row.enabled = false) : Step s (.startSetup c secret)
      (s.begin c (.setup s.row secret))
  | enable {c secret} : Step s (.enable c true) (s.generate c (.enabling s.row secret s.freshCodes))
  | disable {c} : Step s (.disable c true) (s.begin c (.disabling s.row))
  | regenerateBackupCodes {c} (h : s.row.enabled = true) :
      Step s (.regenerateBackupCodes c true) (s.generate c (.regenerating s.row s.freshCodes))
  | verifyForLogin {c code} : Step s (.verifyForLogin c code) (s.begin c (.matched code))
  | lockRow {c code} (hc : s.calls c = some (.matched code)) (hl : s.lock = none)
      (hm : code ∈ s.row.backupCodes) :
      Step s (.lockRow c) { s.begin c (.locked s.row code) with lock := some c }
  | used {c} : Step s (.lockRow c) (s.finish c)
  | setPassword {c} : Step s (.setPassword c) (s.begin c (.password s.row s.now))
  | write {c call new} (hc : s.calls c = some call) (hl : ∀ o ∈ s.lock, o = c)
      (hw : call.written = some new) :
      Step s (.write c) (s.store c call new)

variable {s t : State} {a : Act} {c : ℕ} {call : Call}

theorem step_cases (h : step s a = some t) : Step s a t := by
  unfold step at h
  split at h
  · exact Option.some.inj h ▸ .tick
  · split at h
    · next hd => exact Option.some.inj h ▸ .startSetup (by simpa using hd.2)
    · cases h
  · split at h
    · split at h
      · next hv =>
        cases hv.2.2
        exact Option.some.inj h ▸ .enable
      · cases h
    · cases h
  · split at h
    · next hv =>
      cases hv.2.2
      exact Option.some.inj h ▸ .disable
    · cases h
  · split at h
    · next hv =>
      cases hv.2.2.2
      exact Option.some.inj h ▸ .regenerateBackupCodes hv.2.1
    · cases h
  · split at h
    · exact Option.some.inj h ▸ .verifyForLogin
    · cases h
  · split at h
    · next hc =>
      split at h
      · cases h
      · next hl =>
        split at h
        · next hm => exact Option.some.inj h ▸ .lockRow hc (by simpa using hl) hm
        · exact Option.some.inj h ▸ .used
    · cases h
  · split at h
    · exact Option.some.inj h ▸ .setPassword
    · cases h
  · split at h
    · next hc =>
      split at h
      · cases h
      · next hl =>
        obtain ⟨new, hw, rfl⟩ := Option.map_eq_some_iff.mp h
        refine .write hc (fun o ho => ?_) hw
        rw [Option.mem_def.mp ho] at hl
        simpa using hl
    · cases h

/-! The condition: what a call takes over from its copy is still in the row. -/

/-- The fields a call writes back as it read them, the secret a disable call has checked, and the
stamp of a new password against the stored one. -/
def Call.current (call : Call) (row : AuthMeta) : Bool :=
  match call with
  | .setup copy _ => copy.enabled = row.enabled && copy.backupCodes = row.backupCodes &&
      copy.passwordChangedAt = row.passwordChangedAt
  | .enabling copy _ _ | .regenerating copy _ => copy.passwordChangedAt = row.passwordChangedAt
  | .disabling copy => copy.passwordChangedAt = row.passwordChangedAt && copy.secret = row.secret
  | .matched _ | .locked _ _ => true
  | .password copy changedAt => copy.enabled = row.enabled && copy.backupCodes = row.backupCodes &&
      row.passwordChangedAt.all (· ≤ changedAt)

def current (s : State) : Act → Bool
  | .write c => (s.calls c).all (·.current s.row)
  | _ => true

/-- The steps whose writes take over what is still in the row. -/
def Current : State → Act → State → Prop :=
  Guarded (fun s a t => step s a = some t) fun s a => current s a = true

/-! Codes. -/

/-- New codes are in nobody else's hands, and a code that has left the row does not come back. -/
structure Sound (s : State) : Prop where
  locked : ∀ c fresh code, s.calls c = some (.locked fresh code) → s.lock = some c ∧ fresh = s.row ∧
    code ∈ s.row.backupCodes
  row : ∀ n ∈ s.row.backupCodes, n < s.nextCode ∧ n ∉ s.gone
  gone : ∀ n ∈ s.gone, n < s.nextCode
  unused : ∀ c call, s.calls c = some call → ∀ n ∈ call.newCodes, n < s.nextCode ∧ n ∉ s.gone ∧
    n ∉ s.row.backupCodes
  apart : ∀ c c' call call', s.calls c = some call → s.calls c' = some call' → c ≠ c' →
    ∀ n ∈ call.newCodes, n ∉ call'.newCodes
  accepted : s.accepted.Nodup ∧ ∀ n ∈ s.accepted, n ∈ s.gone

theorem begin_calls {c' : ℕ} {call' : Call} (h : (s.begin c call).calls c' = some call') :
    c' = c ∧ call' = call ∨ c' ≠ c ∧ s.calls c' = some call' := by
  change Function.update s.calls c (some call) c' = some call' at h
  rw [Function.update_apply] at h
  split at h
  · next he => exact .inl ⟨he, (Option.some.inj h).symm⟩
  · next hne => exact .inr ⟨hne, h⟩

theorem finish_calls {c' : ℕ} {call' : Call} (h : (s.finish c).calls c' = some call') :
    c' ≠ c ∧ s.calls c' = some call' := by
  change Function.update s.calls c none c' = some call' at h
  rw [Function.update_apply] at h
  split at h
  · cases h
  · next hne => exact ⟨hne, h⟩

theorem Sound.finish (h : Sound s) : Sound (s.finish c) where
  locked c' fresh code hc := h.locked c' fresh code (finish_calls hc).2
  row := h.row
  gone := h.gone
  unused c' call hc := h.unused c' call (finish_calls hc).2
  apart c₁ c₂ call₁ call₂ h₁ h₂ := h.apart c₁ c₂ call₁ call₂ (finish_calls h₁).2 (finish_calls h₂).2
  accepted := h.accepted

/-- A call that holds no lock and has no new codes. -/
theorem Sound.begin (h : Sound s) (hnew : call.newCodes = []) (hlock : call.acceptedCode = []) :
    Sound (s.begin c call) where
  locked c' fresh code hc := by
    rcases begin_calls hc with ⟨-, rfl⟩ | ⟨-, hc⟩
    · cases hlock
    · exact h.locked c' fresh code hc
  row := h.row
  gone := h.gone
  unused c' call' hc n hn := by
    rcases begin_calls hc with ⟨-, rfl⟩ | ⟨-, hc⟩
    · simp [hnew] at hn
    · exact h.unused c' call' hc n hn
  apart c₁ c₂ call₁ call₂ h₁ h₂ hne n hn := by
    rcases begin_calls h₁ with ⟨-, rfl⟩ | ⟨-, h₁⟩
    · simp [hnew] at hn
    · rcases begin_calls h₂ with ⟨-, rfl⟩ | ⟨-, h₂⟩
      · simp [hnew]
      · exact h.apart c₁ c₂ call₁ call₂ h₁ h₂ hne n hn
  accepted := h.accepted

theorem mem_freshCodes {n : ℕ} (h : n ∈ s.freshCodes) :
    s.nextCode ≤ n ∧ n < s.nextCode + backupCodeCount := by
  simpa [State.freshCodes, List.mem_range'_1] using h

/-- A call that generates new codes. -/
theorem Sound.generate (h : Sound s) (hnew : call.newCodes = s.freshCodes)
    (hlock : call.acceptedCode = []) :
    Sound (s.generate c call) where
  locked c' fresh code hc := by
    rcases begin_calls hc with ⟨-, rfl⟩ | ⟨-, hc⟩
    · cases hlock
    · exact h.locked c' fresh code hc
  row n hn := ⟨Nat.lt_add_right _ (h.row n hn).1, (h.row n hn).2⟩
  gone n hn := Nat.lt_add_right _ (h.gone n hn)
  unused c' call' hc n hn := by
    rcases begin_calls hc with ⟨-, rfl⟩ | ⟨-, hc⟩
    · obtain ⟨hle, hlt⟩ := mem_freshCodes (hnew ▸ hn)
      exact ⟨hlt, fun hg => Nat.not_lt.mpr hle (h.gone n hg), fun hr =>
        Nat.not_lt.mpr hle (h.row n hr).1⟩
    · obtain ⟨hlt, hrest⟩ := h.unused c' call' hc n hn
      exact ⟨Nat.lt_add_right _ hlt, hrest⟩
  apart c₁ c₂ call₁ call₂ h₁ h₂ hne n hn hn' := by
    rcases begin_calls h₁ with ⟨hc₁, he₁⟩ | ⟨-, hs₁⟩
    · rcases begin_calls h₂ with ⟨hc₂, -⟩ | ⟨-, hs₂⟩
      · exact hne (hc₁.trans hc₂.symm)
      · rw [he₁, hnew] at hn
        exact Nat.not_lt.mpr (mem_freshCodes hn).1 (h.unused c₂ call₂ hs₂ n hn').1
    · rcases begin_calls h₂ with ⟨-, he₂⟩ | ⟨-, hs₂⟩
      · rw [he₂, hnew] at hn'
        exact Nat.not_lt.mpr (mem_freshCodes hn').1 (h.unused c₁ call₁ hs₁ n hn).1
      · exact h.apart c₁ c₂ call₁ call₂ hs₁ hs₂ hne n hn hn'
  accepted := h.accepted

/-- The codes a call writes are in the row already or its own. -/
theorem Sound.mem_written (h : Sound s) (hc : s.calls c = some call)
    (hcur : call.current s.row = true) {new : AuthMeta}
    (hw : call.written = some new) {n : ℕ} (hn : n ∈ new.backupCodes) :
    n ∈ s.row.backupCodes ∨ n ∈ call.newCodes := by
  cases call with
  | setup copy secret =>
    cases hw
    simp only [Call.current, Bool.and_eq_true, decide_eq_true_eq] at hcur
    exact .inl (hcur.1.2 ▸ hn)
  | enabling copy secret codes => cases hw; exact .inr hn
  | disabling copy => cases hw; cases hn
  | regenerating copy codes => cases hw; exact .inr hn
  | matched code => cases hw
  | locked fresh code =>
    cases hw
    exact .inl ((h.locked c fresh code hc).2.1 ▸ (List.mem_filter.mp hn).1)
  | password copy changedAt =>
    cases hw
    simp only [Call.current, Bool.and_eq_true, decide_eq_true_eq] at hcur
    exact .inl (hcur.1.2 ▸ hn)

theorem Sound.store (h : Sound s) (hc : s.calls c = some call) (hl : ∀ o ∈ s.lock, o = c)
    (hcur : call.current s.row = true) {new : AuthMeta} (hw : call.written = some new) :
    Sound (s.store c call new) := by
  have hmem := fun {n} => h.mem_written hc hcur hw (n := n)
  have hgone : ∀ n ∈ (s.store c call new).gone, n ∈ s.gone ∨ n ∈ s.row.backupCodes ∧
      n ∉ new.backupCodes := by
    intro n hn
    refine (List.mem_append.mp hn).imp_right fun hn => ?_
    simpa using hn
  constructor
  · intro c' fresh code hc'
    obtain ⟨hne, hc'⟩ := finish_calls hc'
    exact absurd (hl c' (h.locked c' fresh code hc').1) hne
  · intro n hn
    rcases hmem hn with hrow | hnew
    · refine ⟨(h.row n hrow).1, fun hg => ?_⟩
      rcases hgone n hg with hg | hg
      · exact (h.row n hrow).2 hg
      · exact hg.2 hn
    · obtain ⟨hlt, hng, hnr⟩ := h.unused c call hc n hnew
      exact ⟨hlt, fun hg => (hgone n hg).elim hng fun hg => hnr hg.1⟩
  · intro n hn
    rcases hgone n hn with hn | hn
    · exact h.gone n hn
    · exact (h.row n hn.1).1
  · intro c' call' hc' n hn
    obtain ⟨hne, hc'⟩ := finish_calls hc'
    obtain ⟨hlt, hng, hnr⟩ := h.unused c' call' hc' n hn
    refine ⟨hlt, fun hg => (hgone n hg).elim hng fun hg => hnr hg.1, fun hr => ?_⟩
    exact (hmem hr).elim hnr (h.apart c' c call' call hc' hc hne n hn)
  · intro c₁ c₂ call₁ call₂ h₁ h₂
    exact h.apart c₁ c₂ call₁ call₂ (finish_calls h₁).2 (finish_calls h₂).2
  · cases call with
    | locked fresh code =>
      obtain ⟨-, rfl, hcode⟩ := h.locked c _ code hc
      cases hw
      have hleft : code ∈ (s.store c (.locked s.row code)
          { s.row with backupCodes := s.row.backupCodes.filter (· ≠ code) }).gone :=
        List.mem_append_right _ (List.mem_filter.mpr ⟨hcode, by simp⟩)
      refine ⟨List.nodup_append.mpr ⟨h.accepted.1, List.nodup_singleton _, fun n hn m hm => ?_⟩,
        fun n hn => ?_⟩
      · rw [List.mem_singleton.mp hm]
        rintro rfl
        exact (h.row n hcode).2 (h.accepted.2 n hn)
      · rcases List.mem_append.mp hn with hn | hn
        · exact List.mem_append_left _ (h.accepted.2 n hn)
        · rw [List.mem_singleton.mp hn]
          exact hleft
    | _ =>
      change (s.accepted ++ []).Nodup ∧ ∀ n ∈ s.accepted ++ [], n ∈ _
      rw [List.append_nil]
      exact ⟨h.accepted.1, fun n hn => List.mem_append_left _ (h.accepted.2 n hn)⟩

theorem Sound.step (h : Sound s) (hs : Step s a t) (hcur : current s a = true) : Sound t := by
  cases hs with
  | tick => exact ⟨h.locked, h.row, h.gone, h.unused, h.apart, h.accepted⟩
  | startSetup _ => exact h.begin rfl rfl
  | enable => exact h.generate rfl rfl
  | disable => exact h.begin rfl rfl
  | regenerateBackupCodes _ => exact h.generate rfl rfl
  | verifyForLogin => exact h.begin rfl rfl
  | @lockRow c code hc hl hm =>
    have hb : Sound (s.begin c (.matched code)) := h.begin rfl rfl
    refine ⟨fun c' fresh code' hc' => ?_, h.row, h.gone, fun c' call' hc' n hn => ?_,
      fun c₁ c₂ call₁ call₂ h₁ h₂ hne n hn => ?_,
      h.accepted⟩
    · rcases begin_calls hc' with ⟨rfl, he⟩ | ⟨-, hc'⟩
      · cases he
        exact ⟨rfl, rfl, hm⟩
      · rw [(h.locked c' fresh code' hc').1] at hl
        cases hl
    · rcases begin_calls hc' with ⟨-, rfl⟩ | ⟨-, hc'⟩
      · cases hn
      · exact h.unused c' call' hc' n hn
    · rcases begin_calls h₁ with ⟨-, rfl⟩ | ⟨-, h₁⟩
      · cases hn
      · rcases begin_calls h₂ with ⟨-, rfl⟩ | ⟨-, h₂⟩
        · exact List.not_mem_nil
        · exact h.apart c₁ c₂ call₁ call₂ h₁ h₂ hne n hn
  | used => exact h.finish
  | setPassword => exact h.begin rfl rfl
  | write hc hl hw =>
    rw [current, hc, Option.all_some] at hcur
    exact h.store hc hl hcur hw

/-! The row. -/

/-- New backup codes are only written where 2FA was on when the row was read. -/
def Regenerating (s : State) : Prop :=
  ∀ c copy codes, s.calls c = some (.regenerating copy codes) → copy.enabled = true

theorem Regenerating.begin (h : Regenerating s)
    (hc : ∀ copy codes, call = .regenerating copy codes → copy.enabled = true) :
    Regenerating (s.begin c call) := by
  intro c' copy codes hc'
  rcases begin_calls hc' with ⟨-, he⟩ | ⟨-, hs⟩
  · exact hc copy codes he.symm
  · exact h c' copy codes hs

theorem Regenerating.step (h : Regenerating s) (hs : Step s a t) : Regenerating t := by
  cases hs with
  | tick => exact h
  | startSetup _ => exact h.begin nofun
  | enable => exact h.begin nofun
  | disable => exact h.begin nofun
  | regenerateBackupCodes hon => exact h.begin fun _ _ he => by cases he; exact hon
  | verifyForLogin => exact h.begin nofun
  | lockRow _ _ _ => exact h.begin nofun
  | used => exact fun c' copy codes hc' => h c' copy codes (finish_calls hc').2
  | setPassword => exact h.begin nofun
  | write _ _ _ => exact fun c' copy codes hc' => h c' copy codes (finish_calls hc').2

/-- The switch is only turned off by a disable call, with the secret it has checked. -/
theorem enabled_written (h : Sound s) (hr : Regenerating s) (hc : s.calls c = some call)
    (hcur : call.current s.row = true)
    {new : AuthMeta} (hw : call.written = some new) (hon : s.row.enabled = true)
    (hoff : new.enabled = false) :
    ∃ copy, call = .disabling copy ∧ copy.secret = s.row.secret := by
  cases call with
  | setup copy secret =>
    cases hw
    simp only [Call.current, Bool.and_eq_true, decide_eq_true_eq] at hcur
    rw [← hcur.1.1] at hon
    rw [hon] at hoff
    cases hoff
  | enabling copy secret codes => cases hw; cases hoff
  | disabling copy =>
    simp only [Call.current, Bool.and_eq_true, decide_eq_true_eq] at hcur
    exact ⟨copy, rfl, hcur.2⟩
  | regenerating copy codes =>
    cases hw
    rw [hr c copy codes hc] at hoff
    cases hoff
  | matched code => cases hw
  | locked fresh code =>
    cases hw
    rw [(h.locked c fresh code hc).2.1, hon] at hoff
    cases hoff
  | password copy changedAt =>
    cases hw
    simp only [Call.current, Bool.and_eq_true, decide_eq_true_eq] at hcur
    rw [← hcur.1.1] at hon
    rw [hon] at hoff
    cases hoff

/-- The stamp never goes back. -/
theorem changedAt_written (h : Sound s) (hc : s.calls c = some call)
    (hcur : call.current s.row = true) {new : AuthMeta}
    (hw : call.written = some new) {v : ℕ} (hv : s.row.passwordChangedAt = some v) :
    ∃ v', new.passwordChangedAt = some v' ∧ v ≤ v' := by
  cases call with
  | matched code => cases hw
  | locked fresh code =>
    cases hw
    exact ⟨v, (h.locked c fresh code hc).2.1 ▸ hv, Nat.le_refl _⟩
  | password copy changedAt =>
    cases hw
    simp only [Call.current, hv, Option.all_some, Bool.and_eq_true, decide_eq_true_eq] at hcur
    exact ⟨changedAt, rfl, hcur.2⟩
  | _ copy =>
    cases hw
    simp only [Call.current, Bool.and_eq_true, decide_eq_true_eq] at hcur
    refine ⟨v, ?_, Nat.le_refl _⟩
    simp_all

/-! Runs. -/

structure Start (s : State) : Prop where
  calls : ∀ c, s.calls c = none
  codes : ∀ n ∈ s.row.backupCodes, n < s.nextCode
  accepted : s.accepted = []
  gone : s.gone = []

theorem Start.sound (h : Start s) : Sound s where
  locked c fresh code hc := by
    rw [h.calls] at hc
    cases hc
  row n hn := ⟨h.codes n hn, by simp [h.gone]⟩
  gone := by simp [h.gone]
  unused c call hc := by
    rw [h.calls] at hc
    cases hc
  apart c c' call call' hc := by
    rw [h.calls] at hc
    cases hc
  accepted := by simp [h.accepted]

theorem tokenRevoked_of_changedAt {row : AuthMeta} {v v' iat : ℕ}
    (hv : row.passwordChangedAt = some v') (hle : v ≤ v')
    (hiat : iat < v) : tokenRevoked row iat = true := by
  simp only [tokenRevoked, hv, Option.getD_some, Bool.and_eq_true, decide_eq_true_eq]
  omega

/-- However the calls interleave: 2FA is left with a checked code only, backup codes work once and
not after they have left the row, and a password change ends the older sessions for good, as long as
no call takes over what is no longer in the row. -/
theorem second_factor_holds {s₀ : State} {acts : List Act} (hstart : Start s₀)
    (hrun : Run Current s₀ acts s) :
    s.accepted.Nodup ∧
    (∀ a t, Current s a t →
      (s.row.enabled = true → t.row.enabled = false →
        ∃ c copy, a = .write c ∧ s.calls c = some (.disabling copy) ∧ copy.secret = s.row.secret) ∧
      ∀ n, t.accepted = s.accepted ++ [n] → n ∉ s.gone) ∧
    ∀ acts' t v, Run Current s acts' t → s.row.passwordChangedAt = some v →
      (∃ v', t.row.passwordChangedAt = some v' ∧ v ≤ v') ∧ ∀ iat < v,
      tokenRevoked t.row iat = true := by
  have hs : Sound s ∧ Regenerating s := by
    refine hrun.guarded_invariant (I := fun s => Sound s ∧ Regenerating s)
      (fun s a t hs hcur h => ?_) ⟨hstart.sound, ?_⟩
    · exact ⟨h.1.step (step_cases hs) hcur, h.2.step (step_cases hs)⟩
    · intro c copy codes hc
      rw [hstart.calls] at hc
      cases hc
  refine ⟨hs.1.accepted.1, fun a t hat => ⟨fun hon hoff => ?_, fun n hn hgone => ?_⟩,
    fun acts' t v hrest hv => ?_⟩
  · cases step_cases hat.1 with
    | @write c call new hc hl hw =>
      have hcur : call.current s.row = true := by simpa [current, hc] using hat.2
      obtain ⟨copy, rfl, hsecret⟩ := enabled_written hs.1 hs.2 hc hcur hw hon hoff
      exact ⟨c, copy, rfl, hc, hsecret⟩
    | _ =>
      change s.row.enabled = false at hoff
      rw [hon] at hoff
      cases hoff
  · have hnodup := (hs.1.step (step_cases hat.1) hat.2).accepted.1
    cases step_cases hat.1 with
    | @write c call new hc hl hw =>
      have hcode : call.acceptedCode = [n] := List.append_cancel_left hn
      cases call with
      | locked fresh code =>
        cases hcode
        exact (hs.1.row n (hs.1.locked c fresh n hc).2.2).2 hgone
      | _ => cases hcode
    | _ =>
      have hlen := congrArg List.length hn
      simp [State.begin, State.generate, State.finish] at hlen
  · have hmono : Sound t ∧ Regenerating t ∧ ∃ v', t.row.passwordChangedAt = some v' ∧ v ≤ v' := by
      refine hrest.guarded_invariant (I := fun t => Sound t ∧ Regenerating t ∧ ∃ v',
        t.row.passwordChangedAt = some v' ∧ v ≤ v')
        (fun s a t hstep hcur h => ?_) ⟨hs.1, hs.2, v, hv, Nat.le_refl _⟩
      refine ⟨h.1.step (step_cases hstep) hcur, h.2.1.step (step_cases hstep), ?_⟩
      obtain ⟨v', hv', hle⟩ := h.2.2
      cases step_cases hstep with
      | @write c call new hc hl hw =>
        have hcur : call.current s.row = true := by simpa [current, hc] using hcur
        obtain ⟨v'', hv'', hle'⟩ := changedAt_written h.1 hc hcur hw hv'
        exact ⟨v'', hv'', Nat.le_trans hle hle'⟩
      | _ => exact ⟨v', hv', hle⟩
    obtain ⟨v', hv', hle⟩ := hmono.2.2
    exact ⟨⟨v', hv', hle⟩, fun iat hiat => tokenRevoked_of_changedAt hv' hle hiat⟩

/-! A user with 2FA and two backup codes, and one who is setting it up. -/

def withCodes : State where
  row := ⟨none, some "S", true, [0, 1], none⟩
  now := 100
  lock := none
  calls := fun _ => none
  nextCode := 2
  accepted := []
  gone := []

def settingUp : State := { withCodes with row := ⟨some "S", none, false, [], none⟩, nextCode := 0 }

theorem withCodes_start : Start withCodes := ⟨fun _ => rfl, by decide, rfl, rfl⟩

/-- Two logins with one code, then a new password. -/
def inTurn : List Act :=
  [.verifyForLogin 0 1, .verifyForLogin 1 1, .lockRow 0, .write 0, .lockRow 1, .setPassword 2,
    .write 2]

theorem second_factor_holds_sample :
    ∃ s, Run Current withCodes inTurn s ∧ s.accepted = [1] ∧ s.accepted.Nodup ∧
    s.row.passwordChangedAt = some 100 ∧ tokenRevoked s.row 99 = true := by
  have hrun : ((inTurn.foldlM (Run.checked step fun s a => current s a = true) withCodes).map
    fun s =>
      (s.accepted, s.row.passwordChangedAt)) = some ([1], some 100) := by decide +kernel
  obtain ⟨s, hs, h⟩ := Option.map_eq_some_iff.mp hrun
  injection h with haccepted hchanged
  have hs : Run Current withCodes inTurn s := Run.of_checked hs
  obtain ⟨hnodup, -, hrevoked⟩ := second_factor_holds withCodes_start hs
  exact ⟨s, hs, haccepted, hnodup, hchanged, (hrevoked [] s 100 (.nil s) hchanged).2 99 (by decide)⟩

/-- A setup that has read the row before 2FA was enabled writes it back without. -/
def setupMeanwhile : List Act := [.startSetup 0 "T", .enable 1 true, .write 1, .write 0]

/-- A new password is stored with the backup codes as they were before one was used. -/
def codeTwice : List Act :=
  [.setPassword 0, .verifyForLogin 1 0, .lockRow 1, .write 1, .write 0, .verifyForLogin 2 0,
    .lockRow 2, .write 2]

/-- 2FA is enabled with a copy of the row from before a new password. -/
def stampLost : List Act := [.enable 0 true, .setPassword 1, .write 1, .write 0]

theorem second_factor_fails :
    (∃ s t, Run (fun s a t => step s a = some t) settingUp (setupMeanwhile.take 3) s ∧
      s.row.enabled = true ∧
      step s (.write 0) = some t ∧ t.row.enabled = false ∧ ∀ copy,
      s.calls 0 ≠ some (.disabling copy)) ∧
    (∃ s, Run (fun s a t => step s a = some t) withCodes codeTwice s ∧ s.accepted = [0, 0]) ∧
    ∃ s t, Run (fun s a t => step s a = some t) settingUp (stampLost.take 3) s ∧
    s.row.passwordChangedAt = some 100 ∧
      step s (.write 0) = some t ∧ t.row.passwordChangedAt = none ∧
      tokenRevoked t.row 99 = false := by
  refine ⟨?_, ?_, ?_⟩
  · have hrun : (((setupMeanwhile.take 3).foldlM step settingUp).bind fun s =>
        (step s (.write 0)).map fun t => (s.row.enabled, t.row.enabled,
          match s.calls 0 with | some (.disabling _) => true | _ => false)) =
        some (true, false, false) := by decide +kernel
    obtain ⟨s, hs, h⟩ := Option.bind_eq_some_iff.mp hrun
    obtain ⟨t, ht, h⟩ := Option.map_eq_some_iff.mp h
    injection h with hon h
    injection h with hoff hcall
    refine ⟨s, t, Run.of_foldlM hs, hon, ht, hoff, fun copy hc => ?_⟩
    rw [hc] at hcall
    cases hcall
  · have hrun : (codeTwice.foldlM step withCodes).map State.accepted = some [0, 0] := by
      decide +kernel
    obtain ⟨s, hs, haccepted⟩ := Option.map_eq_some_iff.mp hrun
    exact ⟨s, Run.of_foldlM hs, haccepted⟩
  · have hrun : (((stampLost.take 3).foldlM step settingUp).bind fun s =>
      (step s (.write 0)).map fun t =>
        (s.row.passwordChangedAt, t.row.passwordChangedAt, tokenRevoked t.row 99)) =
        some (some 100, none, false) := by decide +kernel
    obtain ⟨s, hs, h⟩ := Option.bind_eq_some_iff.mp hrun
    obtain ⟨t, ht, h⟩ := Option.map_eq_some_iff.mp h
    injection h with hstamp h
    injection h with hlost hvalid
    exact ⟨s, t, Run.of_foldlM hs, hstamp, ht, hlost, hvalid⟩

end TwoFactor

end FloppyGuard.Accounts
