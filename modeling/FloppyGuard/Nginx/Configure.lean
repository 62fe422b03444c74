import FloppyGuard.Nginx.Files

/-! `configure` of one host: test, back up, render, test again, put the previous conf back if need
be. -/
namespace FloppyGuard.Nginx

/-- The columns of the host's meta that `configure` writes. -/
structure NginxMeta where
  nginxOnline : Bool
  nginxErr : Option String
deriving DecidableEq

/-- Everything `configure` asks from outside: `nginx -t` on the live confs, the safety gates, the
template engine, the patch of the host's row (a success or a rejection) and `nginx -s reload`. -/
structure Outside where
  test : Live → Except String Unit
  assertSafeHostFields : Except String Unit
  render : Render
  patchAccepted : Except String Unit
  patchRejected : Except String Unit
  reloadTested : Except String Unit

section Steps
variable (id : HostId)

abbrev Step (α : Type) := Effect Files String α

def onHost (f : HostFiles → HostFiles) : Step Unit :=
  modify fun files => Function.update files id (f (files id))

def askHost {α : Type} (f : HostFiles → α × HostFiles) : Step α := do
  let files ← get
  onHost id fun h => (f h).2
  pure (f (files id)).1

def nginxTest (out : Outside) : Step Unit := do
  let files ← get
  Effect.ofExcept (out.test (live files))

def generateConfig (out : Outside) : Step Unit := do
  let outcome ← askHost id (·.generateConfig out.render)
  Effect.ofExcept outcome

def restorePrevious (hadBackup : Bool) : Step Bool :=
  if hadBackup then askHost id HostFiles.restoreConfigBackup else pure false

def rejectedMeta (restored : Bool) (output : String) : NginxMeta :=
  if restored then
    ⟨true,
      some ("New config rejected by nginx -t; the previous config is still active:\n" ++ output)⟩
  else ⟨false, some output⟩

def rejectedMessage (rejectedOutput : String) : String :=
  "nginx rejected the new configuration, so the changes are not active; the previous " ++
  "configuration is still " ++
    "being served. Fix the settings and save again.\n" ++ rejectedOutput

/-- The rejection branch of the second test: the new conf is kept as `.err`, the previous one put
back. -/
def recordRejection (out : Outside) (hadBackup : Bool) (err : String) :
    Step (NginxMeta × Option String) := do
  let validLines := cleanOutput err
  onHost id HostFiles.renameConfigAsError
  onHost id (·.deleteConfig false)
  let restored ← restorePrevious id hadBackup
  Effect.ofExcept out.patchRejected
  pure (rejectedMeta restored validLines, if restored then some validLines else none)

/-- The second test. A refused patch of the row ends in the rejection branch, as a refused test
does. -/
def testAndRecord (out : Outside) (hadBackup : Bool) : Step (NginxMeta × Option String) :=
  tryCatch
    (do
      nginxTest out
      Effect.ofExcept out.patchAccepted
      onHost id HostFiles.dropConfigBackup
      pure (⟨true, none⟩, none))
    (recordRejection id out hadBackup)

/-- The last steps: the reload, and the rejection of a conf that is not live. -/
def finish (out : Outside) (recorded : NginxMeta × Option String) : Step NginxMeta := do
  Effect.ofExcept out.reloadTested
  match recorded.2 with
  | some output => throw (rejectedMessage output)
  | none => pure recorded.1

def configure (out : Outside) : Step NginxMeta := do
  nginxTest out
  Effect.ofExcept out.assertSafeHostFields
  let hadBackup ← askHost id HostFiles.backupConfig
  onHost id (·.deleteConfig true)
  tryCatch (generateConfig id out) fun err => do
    onHost id (·.deleteConfig false)
    let _ ← restorePrevious id hadBackup
    throw err
  let recorded ← testAndRecord id out hadBackup
  finish out recorded

end Steps

open Effect

variable {id : HostId} {files : Files} {out : Outside} {old : Option String} {α : Type}

theorem ends_onHost {f : HostFiles → HostFiles} {Q : Except String Unit → Files → Prop} :
    Ends (onHost id f) files Q ↔ Q (.ok ()) (Function.update files id (f (files id))) := Iff.rfl

theorem ends_askHost {f : HostFiles → α × HostFiles} {Q : Except String α → Files → Prop} :
    Ends (askHost id f) files Q ↔
    Q (.ok (f (files id)).1) (Function.update files id (f (files id)).2) := Iff.rfl

theorem ends_nginxTest {Q : Except String Unit → Files → Prop} :
    Ends (nginxTest out) files Q ↔ Q (out.test (live files)) files := Iff.rfl

theorem ends_generateConfig {Q : Except String Unit → Files → Prop} :
    Ends (generateConfig id out) files Q ↔
      Q ((files id).generateConfig out.render).1
        (Function.update files id ((files id).generateConfig out.render).2) :=
  Iff.rfl

/-- Only the host's own files change. -/
def Local (id : HostId) (files t : Files) : Prop := ∀ id', id' ≠ id → t id' = files id'

theorem Local.update {h : HostFiles} : Local id files (Function.update files id h) :=
  fun _ hne => Function.update_of_ne hne _ _

theorem Local.trans {t u : Files} (h : Local id files t) (h' : Local id t u) : Local id files u :=
  fun id' hne => (h' id' hne).trans (h id' hne)

theorem Local.live_eq {t : Files} (h : Local id files t) (hconf : (t id).conf = (files id).conf) :
    live t = live files := by
  funext id'
  by_cases hid : id' = id
  · rw [hid]
    exact hconf
  · exact congrArg HostFiles.conf (h id' hid)

/-- The saved conf, when there is one, is in the backup. -/
def Saved (id : HostId) (old : Option String) (files : Files) : Prop :=
  ∀ c, old = some c → (files id).bak = some c

/-- Putting the saved conf back, or leaving the host without one. -/
theorem ends_restorePrevious (hsaved : Saved id old files) {Q : Except String Bool → Files → Prop}
    (hQ : ∀ t, Local id files t → (t id).conf = old.or (files id).conf → Q (.ok old.isSome) t) :
    Ends (restorePrevious id old.isSome) files Q := by
  cases old with
  | none => exact hQ files (fun _ _ => rfl) rfl
  | some c =>
    have hrestore : (files id).restoreConfigBackup =
        (true, { files id with conf := some c, bak := none }) := by
      simp [HostFiles.restoreConfigBackup, hsaved c rfl]
    simp only [restorePrevious, Option.isSome_some, if_true, ends_askHost, hrestore]
    refine hQ _ Local.update ?_
    rw [Function.update_self]
    rfl

/-- The rejection branch leaves the saved conf, or none, and says so when it could put one back. -/
theorem ends_recordRejection {err : String} (hsaved : Saved id old files) :
    Ends (recordRejection id out old.isSome err) files fun r t => Local id files t ∧
    (t id).conf = old ∧
      ∀ m o, r = .ok (m, o) → old ≠ none → o ≠ none := by
  have hgone : (((files id).renameConfigAsError).deleteConfig false).conf = none ∧
      (((files id).renameConfigAsError).deleteConfig false).bak = (files id).bak := by
    unfold HostFiles.renameConfigAsError
    split <;> simp [HostFiles.deleteConfig]
  have hkept : Saved id old
      (Function.update files id ((files id).renameConfigAsError.deleteConfig false)) := by
    intro c hc
    rw [Function.update_self, hgone.2, hsaved c hc]
  simp only [recordRejection, ends_bind, ends_onHost, Function.update_self, Function.update_idem]
  refine ends_restorePrevious hkept fun t hlocal hconf => ?_
  have hl : Local id files t := Local.trans Local.update hlocal
  have hc : (t id).conf = old := by
    rw [hconf, Function.update_self, hgone.1, Option.or_none]
  cases hp : out.patchRejected with
  | error e => exact ⟨hl, hc, nofun⟩
  | ok _ =>
    refine ⟨hl, hc, ?_⟩
    rintro m o ⟨⟩ hold
    simp [Option.isSome_iff_ne_none.mpr hold]

/-- After the second test the new conf stays and passes, or the host is back where it was. -/
theorem ends_testAndRecord (hsaved : Saved id old files) :
    Ends (testAndRecord id out old.isSome) files fun r t => Local id files t ∧
      ((t id).conf = (files id).conf ∧ out.test (live t) = .ok () ∨
        (t id).conf = old ∧ ∀ m o, r = .ok (m, o) → old ≠ none → o ≠ none) := by
  have rejected : ∀ err, Ends (recordRejection id out old.isSome err) files fun r t =>
    Local id files t ∧
      ((t id).conf = (files id).conf ∧ out.test (live t) = .ok () ∨
        (t id).conf = old ∧ ∀ m o, r = .ok (m, o) → old ≠ none → o ≠ none) := by
    intro err
    have hends : Ends (recordRejection id out old.isSome err) files _ := ends_recordRejection hsaved
    exact ⟨hends.1, .inr hends.2⟩
  unfold testAndRecord
  rw [ends_tryCatch, ends_bind, ends_nginxTest]
  cases htest : out.test (live files) with
  | error e => exact rejected e
  | ok _ =>
    rw [ends_bind, ends_ofExcept]
    cases out.patchAccepted with
    | error e => exact rejected e
    | ok _ =>
      have hconf : (Function.update files id (files id).dropConfigBackup id).conf =
          (files id).conf := by
        rw [Function.update_self]
        rfl
      refine ⟨Local.update, .inl ⟨hconf, ?_⟩⟩
      change out.test (live (Function.update files id (files id).dropConfigBackup)) = _
      rw [Local.update.live_eq hconf, htest]

theorem ends_finish {m : NginxMeta} {o : Option String} :
    Ends (finish out (m, o)) files fun r t => t = files ∧ (o ≠ none → ∃ e, r = .error e) := by
  simp only [finish, ends_bind, ends_ofExcept]
  cases out.reloadTested with
  | error e => exact ⟨trivial, fun _ => ⟨e, rfl⟩⟩
  | ok _ =>
    cases o with
    | none => exact ⟨rfl, fun h => absurd rfl h⟩
    | some output => exact ⟨rfl, fun _ => ⟨_, rfl⟩⟩

/-- How the files of a host may be left once `configure` has begun to move them. -/
structure Left (id : HostId) (out : Outside) (old : Option String) (r : Except String NginxMeta)
    (t : Files) : Prop where
  conf : (t id).conf = old ∨
    ∃ text, out.render = .complete text ∧ (t id).conf = some text ∧ out.test (live t) = .ok ()
  serves : old ≠ none → (t id).conf ≠ none
  rejects : old ≠ none → (¬ ∃ text, out.render = .complete text ∧ (t id).conf = some text) →
    ∃ e, r = .error e

theorem Left.of_error {e : String} {t : Files} (h : (t id).conf = old) :
    Left id out old (.error e) t :=
  ⟨.inl h, fun ho => h ▸ ho, fun _ _ => ⟨e, rfl⟩⟩

theorem Left.of_new {text : String} {r : Except String NginxMeta} {t : Files}
    (hrender : out.render = .complete text)
    (h : (t id).conf = some text) (htest : out.test (live t) = .ok ()) : Left id out old r t where
  conf := .inr ⟨text, hrender, h, htest⟩
  serves := fun _ => h ▸ nofun
  rejects := fun _ hn => absurd ⟨text, hrender, h⟩ hn

/-- From the rendered conf to the end. -/
theorem ends_rendered {text : String} (hrender : out.render = .complete text)
    (hconf : (files id).conf = some text) (hsaved : Saved id old files) :
    Ends (testAndRecord id out old.isSome >>= finish out) files fun r t =>
      Local id files t ∧ Left id out old r t := by
  rw [ends_bind]
  refine (ends_testAndRecord hsaved).imp ?_
  rintro r t ⟨hlocal, hleft⟩
  cases r with
  | error e =>
    rcases hleft with ⟨hc, htest⟩ | ⟨hc, -⟩
    · exact ⟨hlocal, .of_new hrender (hc.trans hconf) htest⟩
    · exact ⟨hlocal, .of_error hc⟩
  | ok recorded =>
    refine ends_finish.imp ?_
    rintro r' t' ⟨rfl, hrejects⟩
    refine ⟨hlocal, ?_⟩
    rcases hleft with ⟨hc, htest⟩ | ⟨hc, hout⟩
    · exact .of_new hrender (hc.trans hconf) htest
    · exact ⟨.inl hc, fun ho => hc ▸ ho, fun ho _ => hrejects (hout _ _ rfl ho)⟩

/-- Whatever fails on the way: the previous conf of the host is live, or the new one, which then
passes; a host that had a conf has one, and the call rejects unless it is the new one. -/
theorem configure_keeps_conf : Ends (configure id out) files fun r t => Local id files t ∧
    match out.test (live files), out.assertSafeHostFields with
    | .ok _, .ok _ => Left id out (previous (files id)) r t
    | _, _ => t = files ∧ ∃ e, r = .error e := by
  simp only [configure, ends_bind, ends_nginxTest, ends_ofExcept, ends_onHost, ends_askHost]
  cases htest : out.test (live files) with
  | error e => exact ⟨fun _ _ => rfl, trivial, e, rfl⟩
  | ok _ =>
    cases hgate : out.assertSafeHostFields with
    | error e => exact ⟨fun _ _ => rfl, trivial, e, rfl⟩
    | ok _ =>
      simp only [ends_tryCatch, ends_generateConfig, Function.update_self, Function.update_idem,
        backupConfig_fst]
      have hbak : ∀ c, previous (files id) = some c → (files id).backupConfig.2.bak = some c := by
        intro c hc
        rw [backupConfig_bak (by rw [backupConfig_fst, hc]; rfl), hc]
      cases hrender : out.render with
      | complete text =>
        simp only [HostFiles.generateConfig, ← ends_bind]
        have hsaved : Saved id (previous (files id)) (Function.update files id
            { (files id).backupConfig.2.deleteConfig true with conf := some text }) := by
          intro c hc
          rw [Function.update_self]
          exact hbak c hc
        refine (ends_rendered hrender (by rw [Function.update_self]) hsaved).imp ?_
        exact fun r t ⟨hlocal, hleft⟩ => ⟨Local.update.trans hlocal, hleft⟩
      | fails failure =>
        simp only [HostFiles.generateConfig, ends_bind, ends_onHost, Function.update_self,
          Function.update_idem]
        refine ends_restorePrevious (fun c hc => ?_) fun t hlocal hconf => ?_
        · rw [Function.update_self]
          exact hbak c hc
        · rw [Function.update_self] at hconf
          have hc : (t id).conf = previous (files id) := hconf.trans (Option.or_none ..)
          exact ⟨Local.update.trans hlocal, .of_error hc⟩

end FloppyGuard.Nginx
