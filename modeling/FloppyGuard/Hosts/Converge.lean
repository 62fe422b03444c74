import FloppyGuard.Hosts.LiveConf
import FloppyGuard.Lib.Run

/-! When the live confs follow the database: what a call owes, and runs whose last write of a conf
is the right one. -/
namespace FloppyGuard.Hosts.LiveConf

open LostUpdates (Value Column Row Columns Meta Payload truthy isTrue sanitized patched assignMeta
  nginxEntries
  configureMeta bulkMeta writesBulk configKey syncEntries)
open Nginx (HostId Files Live live)
open Mirror (Kept Others Owed)

variable {w : World} {s s' t : State} {a : Act} {id x : HostId} {k listId : ℕ} {c : Call}
  {call : Option Call} {f : Fetch}
  {row : Row} {m : Meta} {tables : Tables}

/-- Found and switched on. -/
def Active (w : World) (s : State) (id : HostId) : Prop :=
  Exists w s id ∧ isEnabled (s.rowOf id) = true

/-- What the template gets for the row in the database, with its certificate and its access list. -/
def current (s : State) (id : HostId) : Rendered := rendered id (s.rowOf id) s.tables

/-- No conf, or that of a host that is switched off. -/
def Idle (w : World) (conf : Option String) : Prop :=
  conf = none ∨ ∃ r : Rendered, r.enabled = false ∧ conf = some (w.template r)

/-- The conf a host should have. -/
def Right (w : World) (s : State) (id : HostId) (conf : Option String) : Prop :=
  (Active w s id → conf = some (w.template (current s id))) ∧ (¬ Active w s id → Idle w conf)

/-- The hosts whose confs a call has still to write or to remove. -/
def Owes (w : World) (s : State) : Call → HostId → Prop
  | .patched id, x => x = id ∧ Active w s x
  | .loading (.update id) f, x => x = id ∧ isEnabled (f.rows x) = true
  | .loading (.relist _) f, x | .unlinking _ f, x | .unlinked f, x | .requesting _ _ f, x =>
    x ∈ f.ids
  | .configuring id _, x | .removing id, x => x = id
  | .relisting listId _, x | .relisted listId, x => Active w s x ∧ accessListId (s.rowOf x) = listId
  | _, _ => False

/-- Another call has still to write the conf of the host. -/
def OwedElsewhere (w : World) (s : State) (k : ℕ) (x : HostId) : Prop :=
  Others (Owes w s) s.calls k x

/-- The hosts a call renders in its next step, and the rows it renders. -/
def Call.renders : Call → Option (List HostId × Fetch)
  | loading (.update id) f | configuring id f => some ([id], f)
  | loading (.relist _) f | unlinked f | requesting _ .cleaned f => some (f.ids, f)
  | _ => none

/-- Rows as the database has them, and nothing of a host that is not active that would serve it. -/
def Matches (w : World) (s : State) (f : Fetch) (id : HostId) : Prop :=
  (Active w s id → rendered id (f.rows id) f.tables = current s id) ∧
    (¬ Active w s id → isEnabled (f.rows id) = false)

/-- The last call to write a host's conf finds what it renders in the database, removes the conf of
no active host, and no write leaves a conf behind that nobody will write. -/
def Steady (w : World) (s : State) : Act → Prop
  | .configure k | .bulk k =>
    ∀ c ids f, s.calls k = some c → c.renders = some (ids, f) → ∀ id ∈ ids,
    Matches w s f id ∨ OwedElsewhere w s k id
  | .remove k => ∀ id, s.calls k = some (.removing id) → ¬ Active w s id ∨ OwedElsewhere w s k id
  | .patch k => ∀ id payload row, s.calls k = some (.updating id payload row) → Active w s id →
    isEnabled (patched payload row) = true ∨
      OwedElsewhere w (s.setRow id (patched payload row)) k id
  | .sync k _ => ∀ id m, s.calls k = some (.syncing id m) → Active w s id →
    shownMeta m = shownMeta (s.rowOf id).meta ∨ OwedElsewhere w s k id
  | .markList k => ∀ listId f, s.calls k = some (.loading (.unlist listId) f) →
    ∀ id, Active w s id → accessListId (s.rowOf id) = listId → id ∈ f.ids ∨ OwedElsewhere w s k id
  | .unlink k => ∀ listId f, s.calls k = some (.unlinking listId f) →
    ∀ id, Active w s id → accessListId (s.rowOf id) = listId → id ∈ f.ids ∨
      OwedElsewhere w (s.unlink listId) k id
  | _ => True

/-! What is rendered. -/

theorem rendered_withMeta (h : shownMeta m = shownMeta row.meta) :
    rendered id (row.withMeta m) tables = rendered id row tables := by
  have hmeta : rendered id (row.withMeta m) tables =
      { rendered id row tables with shown := shownMeta m } := rfl
  rw [hmeta, h]
  rfl

theorem shownMeta_nginx {n : Nginx.NginxMeta} :
    shownMeta (assignMeta m (nginxEntries n)) = shownMeta m := by
  simp [shownMeta, assignMeta, nginxEntries]

/-- A sync writes the server's fields of a config. -/
theorem shownMeta_sync {outcome entries : Meta} (h : syncEntries m outcome = some entries) :
    shownMeta (assignMeta m entries) = shownMeta m := by
  unfold syncEntries at h
  split at h
  · next config hconfig =>
    obtain rfl := Option.some.inj h
    have hkey : configKey m = "cloudflareDns" ∨ configKey m = "cloudflare_dns" := by
      unfold configKey
      split
      · exact Or.inl rfl
      · exact Or.inr rfl
    have hproxied : isProxied (some (LostUpdates.syncedConfig config outcome)) =
        isProxied (some (.object config)) := by
      simp [LostUpdates.syncedConfig, isProxied, LostUpdates.serverFields]
    rcases hkey with hkey | hkey <;> rw [hkey] at hconfig <;>
      simp [shownMeta, assignMeta, hkey, hconfig, hproxied]
  · cases h

theorem listView_eq {t' : Tables} {l : ℕ} (hlists : t'.lists l = tables.lists l)
    (hitems : t'.items l = tables.items l)
    (hclients : t'.clients l = tables.clients l) : listView t' l = listView tables l := by
  rw [listView, hlists, hitems, hclients]
  rfl

theorem rendered_eq {t' : Tables}
    (hcertificate : t'.certificates (certificateId row) = tables.certificates (certificateId row))
    (hlist : listView t' (accessListId row) = listView tables (accessListId row)) :
    rendered id row t' = rendered id row tables := by
  rw [rendered, hcertificate, hlist]
  rfl

/-- The writes of a list are seen by the hosts that use it. -/
theorem rendered_write {write : ListWrite} (h : accessListId row ≠ listId) :
    rendered id row (tables.write listId write) = rendered id row tables := by
  cases write <;>
    exact rendered_eq
      rfl (listView_eq
        (by simp [Tables.write, Tables.setList, Tables.setItems, Tables.setClients, h])
    (by simp [Tables.write, Tables.setList, Tables.setItems, Tables.setClients, h])
    (by simp [Tables.write, Tables.setList, Tables.setItems, Tables.setClients, h]))

theorem rendered_setList {flags : ListFlags} (h : accessListId row ≠ listId) :
    rendered id row (tables.setList listId flags) = rendered id row tables :=
  rendered_eq rfl (listView_eq (Function.update_of_ne h ..) rfl rfl)

/-! What a write leaves as it is. -/

/-- The host stays where it is: switched on or off, deleted or not, with its list. -/
structure Placed (s t : State) (x : HostId) : Prop where
  isDeleted : (t.hosts x).isDeleted = (s.hosts x).isDeleted
  isEnabled : isEnabled (t.rowOf x) = isEnabled (s.rowOf x)
  list : accessListId (t.rowOf x) = accessListId (s.rowOf x)

theorem Placed.of_eq (h : t.hosts x = s.hosts x) : Placed s t x := by
  refine ⟨?_, ?_, ?_⟩ <;> simp only [State.rowOf, h]

theorem Placed.active_iff (h : Placed s t x) : Active w t x ↔ Active w s x := by
  rw [Active, Active, Exists, Exists, h.isDeleted, h.isEnabled]

theorem Placed.owes (h : Placed s t x) (ho : Owes w s c x) : Owes w t c x := by
  cases c with
  | patched id => exact ⟨ho.1, h.active_iff.mpr ho.2⟩
  | relisting | relisted => exact ⟨h.active_iff.mpr ho.1, h.list.trans ho.2⟩
  | loading goal f => cases goal <;> exact ho
  | _ => exact ho

/-- What is owed for a host that is not active does not depend on its row. -/
theorem owes_of_not_active (h : ¬ Active w s x) (ho : Owes w s c x) : Owes w t c x := by
  cases c with
  | patched id => exact absurd ho.2 h
  | relisting | relisted => exact absurd ho.1 h
  | loading goal f => cases goal <;> exact ho
  | _ => exact ho

/-- The host, what is rendered for it and its conf stay. -/
structure Frame (w : World) (s t : State) (x : HostId) : Prop where
  placed : Placed s t x
  current : Active w s x → current t x = current s x
  conf : live t.files x = live s.files x

theorem Frame.right (h : Frame w s t x) (hr : Right w s x (live s.files x)) :
    Right w t x (live t.files x) := by
  rw [h.conf]
  refine ⟨fun hx => ?_, fun hx => hr.2 (mt h.placed.active_iff.mpr hx)⟩
  have hs := h.placed.active_iff.mp hx
  rw [h.current hs]
  exact hr.1 hs

/-- A host that is not active, before and after, with its conf as it is. -/
theorem right_of_not_active (hs : ¬ Active w s x) (ht : ¬ Active w t x)
    (hconf : live t.files x = live s.files x)
    (hr : Right w s x (live s.files x)) : Right w t x (live t.files x) :=
  ⟨fun hx => absurd hx ht, fun _ => hconf ▸ hr.2 hs⟩

/-- Every conf is right, or owed by a call under way. -/
def Upkept (w : World) (s : State) : Prop :=
  Kept (fun x => Right w s x (live s.files x)) (Owes w s) s.calls

theorem owed_none (hk : s.calls k = none) : ¬ Owed (Owes w s) (s.calls k) x := by
  rintro ⟨c, hc, -⟩
  rw [hk] at hc
  cases hc

theorem owed_some (hk : s.calls k = some c) (h : Owed (Owes w s) (s.calls k) x) : Owes w s c x := by
  obtain ⟨c', hc', ho⟩ := h
  cases hk.symm.trans hc'
  exact ho

/-- A step of the call `k`: outside the hosts it writes all stays, and of these each is right again
or owed. -/
theorem Upkept.write (h : Upkept w s) (P : HostId → Prop) (hcalls : s'.calls = s.calls)
    (hframe : ∀ x, ¬ P x → Frame w s s' x)
    (hown : ∀ x, ¬ P x → Owed (Owes w s) (s.calls k) x → Owed (Owes w s') call x)
    (hat : ∀ x, P x → Right w s x (live s.files x) ∨ OwedElsewhere w s k x ∨
      Owed (Owes w s) (s.calls k) x →
      Right w s' x (live s'.files x) ∨ OwedElsewhere w s' k x ∨ Owed (Owes w s') call x) :
    Upkept w (s'.setCall k call) := by
  have hstep : Kept (fun x => Right w s' x (live s'.files x)) (Owes w s')
      (Function.update s.calls k call) := by
    refine Mirror.Kept.step h fun x hx => ?_
    by_cases hP : P x
    · have hdone := hat x hP hx
      rw [OwedElsewhere, hcalls] at hdone
      exact hdone
    · have hsame := hframe x hP
      rcases hx with hr | ho | ho
      · exact Or.inl (hsame.right hr)
      · exact Or.inr (Or.inl (ho.mono fun _ _ _ _ ho => hsame.placed.owes ho))
      · exact Or.inr (Or.inr (hown x hP ho))
  rw [← hcalls] at hstep
  exact hstep

/-- A step that writes nothing. -/
theorem Upkept.move (h : Upkept w s)
    (hi : ∀ x, Owed (Owes w s) (s.calls k) x → Owed (Owes w s) call x) :
    Upkept w (s.setCall k call) :=
  Mirror.Kept.move h hi

theorem Upkept.start (h : Upkept w s) (hk : s.calls k = none) : Upkept w (s.setCall k call) :=
  h.move fun _ ho => absurd ho (owed_none hk)

theorem Upkept.next (h : Upkept w s) {c' : Call} (hk : s.calls k = some c)
    (hi : ∀ x, Owes w s c x → Owes w s c' x) :
    Upkept w (s.setCall k (some c')) :=
  h.move fun x ho => ⟨c', rfl, hi x (owed_some hk ho)⟩

/-- A call that owes nothing goes where it likes. -/
theorem Upkept.free (h : Upkept w s) (hk : s.calls k = some c) (hi : ∀ x, ¬ Owes w s c x) :
    Upkept w (s.setCall k call) :=
  h.move fun x ho => absurd (owed_some hk ho) (hi x)

/-- A step that writes the row of one host. -/
theorem Upkept.writeHost (h : Upkept w s) {host : Host} (hk : s.calls k = some c)
    (hown : ∀ x, x ≠ id → ¬ Owes w s c x)
    (hat : Right w s id (live s.files id) ∨ OwedElsewhere w s k id ∨ Owes w s c id →
      Right w (s.setHost id host) id (live s.files id) ∨ OwedElsewhere w (s.setHost id host) k id ∨
        Owed (Owes w (s.setHost id host)) call id) : Upkept w
          ((s.setHost id host).setCall k call) := by
  refine h.write (· = id) rfl (fun x hx => ?_) (fun x hx ho => absurd (owed_some hk ho) (hown x hx))
    ?_
  · have hsame : (s.setHost id host).hosts x = s.hosts x := Function.update_of_ne hx ..
    refine ⟨Placed.of_eq hsame, fun _ => ?_, rfl⟩
    rw [current, current, State.rowOf, State.rowOf, hsame]
    rfl
  · rintro x rfl hx
    exact hat (hx.imp id fun ho => ho.imp id (owed_some hk))

/-! The writes. -/

theorem setRow_self : (s.setRow id row).hosts id = { s.hosts id with row := row } :=
  Function.update_self ..

theorem rowOf_setRow : (s.setRow id row).rowOf id = row := by
  rw [State.rowOf, setRow_self]

theorem isDeleted_setRow : ((s.setRow id row).hosts x).isDeleted = (s.hosts x).isDeleted := by
  rcases eq_or_ne x id with rfl | hx
  · rw [setRow_self]
  · exact congrArg Host.isDeleted (Function.update_of_ne hx ..)

theorem exists_setRow : Exists w (s.setRow id row) x ↔ Exists w s x := by
  rw [Exists, Exists, isDeleted_setRow]

theorem upkept_patch {payload : Payload} (h : Upkept w s)
    (hk : s.calls k = some (.updating id payload row))
    (hok : Steady w s (.patch k)) :
    Upkept w ((s.setRow id (patched payload row)).setCall k (some (.patched id))) := by
  refine h.writeHost hk (fun _ _ ho => ho) fun hx => ?_
  by_cases hon : Active w (s.setRow id (patched payload row)) id
  · exact Or.inr (Or.inr ⟨_, rfl, rfl, hon⟩)
  · by_cases hwas : Active w s id
    · rcases hok id payload row hk hwas with he | ho
      · exact absurd ⟨exists_setRow.mpr hwas.1, rowOf_setRow.symm ▸ he⟩ hon
      · exact Or.inr (Or.inl ho)
    · rcases hx with hr | ho | ho
      · exact Or.inl (right_of_not_active hwas hon rfl hr)
      · exact Or.inr (Or.inl (ho.mono fun _ _ _ _ ho => owes_of_not_active hwas ho))
      · exact ho.elim

/-- A host's conf after a render of what the database has. -/
theorem right_of_matches (hm : Matches w s f x) (hplaced : Placed s t x)
    (htables : t.tables = s.tables)
    (hrow : t.rowOf x = s.rowOf x ∨ ∃ m, t.rowOf x = (s.rowOf x).withMeta m ∧
      shownMeta m = shownMeta (f.rows x).meta)
    (hconf : live t.files x = some (texts w f x)) : Right w t x (live t.files x) := by
  rw [hconf]
  constructor
  · intro hx
    have hs := hm.1 (hplaced.active_iff.mp hx)
    have hcurrent : current t x = current s x := by
      rw [current, htables]
      rcases hrow with he | ⟨m, he, hshown⟩
      · rw [he]
        rfl
      · rw [he, rendered_withMeta]
        · rfl
        · exact hshown.trans (congrArg Rendered.shown hs)
    rw [texts, hs, hcurrent]
  · intro hx
    exact Or.inr ⟨rendered x (f.rows x) f.tables, hm.2 (mt hplaced.active_iff.mpr hx), rfl⟩

theorem placed_withMeta (hrow : t.rowOf x = (s.rowOf x).withMeta m)
    (hdeleted : (t.hosts x).isDeleted = (s.hosts x).isDeleted) :
    Placed s t x := by
  refine ⟨hdeleted, ?_, ?_⟩ <;> rw [hrow] <;> rfl

theorem setMeta_self : (s.setMeta id m).rowOf id = (s.rowOf id).withMeta m := rowOf_setRow

theorem placed_setMeta : Placed s (s.setMeta id m) id :=
  placed_withMeta setMeta_self isDeleted_setRow

/-- Another host's row is written. -/
theorem current_setHost {host : Host} (hx : x ≠ id) :
    current (s.setHost id host) x = current s x := by
  have hsame : (s.setHost id host).hosts x = s.hosts x := Function.update_of_ne hx ..
  rw [current, current, State.rowOf, State.rowOf, hsame]
  rfl

theorem upkept_configure (h : Upkept w s) (hk : s.calls k = some c)
    (hrenders : c.renders = some ([id], f))
    (hown : ∀ x, x ≠ id → ¬ Owes w s c x) (hok : Steady w s (.configure k)) :
    Upkept w ((s.configure (texts w f id) id (f.rows id)).setCall k call) := by
  have hlive : live (s.configure (texts w f id) id (f.rows id)).files =
      Function.update (live s.files) id (some (texts w f id)) := Nginx.live_configured
  refine h.write (· = id) rfl (fun x hx => ?_) (fun x hx ho => absurd (owed_some hk ho) (hown x hx))
    ?_
  · refine ⟨Placed.of_eq (Function.update_of_ne hx ..), fun _ => current_setHost hx, ?_⟩
    rw [hlive, Function.update_of_ne hx]
  · rintro x rfl -
    have hplaced : Placed s (s.configure (texts w f x) x (f.rows x)) x :=
      placed_withMeta (s := s) setMeta_self isDeleted_setRow
    rcases hok c [x] f hk hrenders x (List.mem_singleton_self x) with hm | ho
    · refine Or.inl (right_of_matches hm hplaced rfl (Or.inr ⟨_, setMeta_self, shownMeta_nginx⟩) ?_)
      rw [hlive, Function.update_self]
    · exact Or.inr (Or.inl (ho.mono fun _ _ _ _ ho => hplaced.owes ho))

theorem upkept_bulk (h : Upkept w s) (hk : s.calls k = some c)
    (hrenders : c.renders = some (f.ids, f))
    (hown : ∀ x, x ∉ f.ids → ¬ Owes w s c x) (hok : Steady w s (.bulk k)) :
    Upkept w ((s.bulk (texts w f) f).setCall k call) := by
  have hlive : live (s.bulk (texts w f) f).files = fun x => if x ∈ f.ids then some (texts w f x)
      else live s.files x :=
    Nginx.live_regenerated f.nodup
  refine h.write (· ∈ f.ids) rfl (fun x hx => ?_)
    (fun x hx ho => absurd (owed_some hk ho) (hown x hx)) ?_
  · have hsame : (s.bulk (texts w f) f).hosts x = s.hosts x := by
      have hrow : s.clearedRow f x = s.rowOf x := if_neg fun hc => hx hc.1
      change { s.hosts x with row := s.clearedRow f x } = s.hosts x
      rw [hrow]
      rfl
    refine ⟨Placed.of_eq hsame, fun _ => ?_, ?_⟩
    · rw [current, current, State.rowOf, State.rowOf, hsame]
      rfl
    · rw [hlive]
      exact if_neg hx
  · intro x hx _
    have hrow : (s.bulk (texts w f) f).rowOf x = s.rowOf x ∨
        ∃ m, (s.bulk (texts w f) f).rowOf x = (s.rowOf x).withMeta m ∧
          shownMeta m = shownMeta (f.rows x).meta := by
      change s.clearedRow f x = s.rowOf x ∨ ∃ m, s.clearedRow f x = _ ∧ _
      unfold State.clearedRow
      split
      · exact Or.inr ⟨_, rfl, shownMeta_nginx⟩
      · exact Or.inl rfl
    have hplaced : Placed s (s.bulk (texts w f) f) x := by
      rcases hrow with he | ⟨m, he, -⟩
      · refine ⟨rfl, ?_, ?_⟩ <;> rw [he]
      · exact placed_withMeta he rfl
    rcases hok c f.ids f hk hrenders x hx with hm | ho
    · refine Or.inl (right_of_matches hm hplaced rfl hrow ?_)
      rw [hlive]
      exact if_pos hx
    · exact Or.inr (Or.inl (ho.mono fun _ _ _ _ ho => hplaced.owes ho))

theorem upkept_sync {entries outcome : Meta} (h : Upkept w s)
    (hk : s.calls k = some (.syncing id m))
    (hentries : syncEntries m outcome = some entries) (hok : Steady w s (.sync k outcome)) :
    Upkept w ((s.setMeta id (assignMeta m entries)).setCall k call) := by
  refine h.writeHost hk (fun _ _ ho => ho) fun hx => ?_
  have hplaced : Placed s (s.setMeta id (assignMeta m entries)) id := placed_setMeta
  rcases hx with hr | ho | ho
  · by_cases hwas : Active w s id
    · rcases hok id m hk hwas with hshown | ho
      · have hframe : Frame w s (s.setMeta id (assignMeta m entries)) id := by
          refine ⟨hplaced, fun _ => ?_, rfl⟩
          rw [current, setMeta_self, rendered_withMeta ((shownMeta_sync hentries).trans hshown)]
          rfl
        exact Or.inl (hframe.right hr)
      · exact Or.inr (Or.inl (ho.mono fun _ _ _ _ ho => hplaced.owes ho))
    · exact Or.inl (right_of_not_active hwas (mt hplaced.active_iff.mp hwas) rfl hr)
  · exact Or.inr (Or.inl (ho.mono fun _ _ _ _ ho => hplaced.owes ho))
  · exact ho.elim

theorem upkept_remove (h : Upkept w s) (hk : s.calls k = some (.removing id))
    (hok : Steady w s (.remove k)) :
    Upkept w ((s.setFiles (Nginx.deleted id s.files)).setCall k call) := by
  have hlive : live (s.setFiles (Nginx.deleted id s.files)).files = Function.update (live s.files)
      id none :=
    Nginx.live_deleted
  refine h.write (· = id) rfl (fun x hx => ?_) (fun x hx ho => absurd (owed_some hk ho) hx) ?_
  · refine ⟨Placed.of_eq rfl, fun _ => rfl, ?_⟩
    rw [hlive, Function.update_of_ne hx]
  · rintro x rfl -
    rcases hok x hk with hoff | ho
    · refine Or.inl ⟨fun hx => absurd hx hoff, fun _ => Or.inl ?_⟩
      rw [hlive, Function.update_self]
    · exact Or.inr (Or.inl ho)

theorem upkept_writeList {write : ListWrite} {writes : List ListWrite} (h : Upkept w s)
    (hk : s.calls k = some (.relisting listId (write :: writes))) :
    Upkept w
      ((s.setTables (s.tables.write listId write)).setCall k
        (some (.relisting listId writes))) := by
  refine h.write (fun x => Active w s x ∧ accessListId (s.rowOf x) = listId) rfl (fun x hx => ?_)
    (fun x hx ho => absurd (owed_some hk ho) hx) fun x hx _ => Or.inr (Or.inr ⟨_, rfl, hx⟩)
  refine ⟨Placed.of_eq rfl, fun hactive => ?_, rfl⟩
  exact rendered_write fun hlist => hx ⟨hactive, hlist⟩

theorem upkept_markList (h : Upkept w s) (hk : s.calls k = some (.loading (.unlist listId) f))
    (hok : Steady w s (.markList k)) {flags : ListFlags} :
    Upkept w
      ((s.setTables (s.tables.setList listId flags)).setCall k (some (.unlinking listId f))) := by
  refine h.write (fun x => Active w s x ∧ accessListId (s.rowOf x) = listId) rfl (fun x hx => ?_)
    (fun x _ ho => (owed_some hk ho).elim) fun x hx _ => ?_
  · refine ⟨Placed.of_eq rfl, fun hactive => ?_, rfl⟩
    exact rendered_setList fun hlist => hx ⟨hactive, hlist⟩
  · rcases hok listId f hk x hx.1 hx.2 with hf | ho
    · exact Or.inr (Or.inr ⟨_, rfl, hf⟩)
    · exact Or.inr (Or.inl ho)

theorem owes_unlinked {v : Value} (h : Owes w s (.unlinking listId f) x) :
    Owes w t (.unlinked (f.setColumn .accessListId v)) x := h

theorem upkept_unlink {v : Value} (h : Upkept w s) (hk : s.calls k = some (.unlinking listId f))
    (hok : Steady w s (.unlink k)) :
    Upkept w ((s.unlink listId).setCall k (some (.unlinked (f.setColumn .accessListId v)))) := by
  refine h.write (fun x => accessListId (s.rowOf x) = listId) rfl (fun x hx => ?_)
    (fun x _ ho => ⟨_, rfl, owes_unlinked (owed_some hk ho)⟩) fun x hx hdone => ?_
  · have hsame : (s.unlink listId).hosts x = s.hosts x := if_neg hx
    refine ⟨Placed.of_eq hsame, fun _ => ?_, rfl⟩
    rw [current, current, State.rowOf, State.rowOf, hsame]
    rfl
  · by_cases hactive : Active w s x
    · rcases hok listId f hk x hactive hx with hf | ho
      · exact Or.inr (Or.inr ⟨_, rfl, hf⟩)
      · exact Or.inr (Or.inl ho)
    · have hafter : ¬ Active w (s.unlink listId) x := by
        have hhost : (s.unlink listId).hosts x =
            { s.hosts x with row := (s.rowOf x).setColumn .accessListId (.num 0) } :=
          if_pos hx
        rw [Active, Exists, State.rowOf, hhost]
        exact hactive
      rcases hdone with hr | ho | ho
      · exact Or.inl (right_of_not_active hactive hafter rfl hr)
      · exact Or.inr (Or.inl (ho.mono fun _ _ _ _ ho => owes_of_not_active hactive ho))
      · exact Or.inr (Or.inr ⟨_, rfl, owes_unlinked (owed_some hk ho)⟩)

theorem upkept_stash {r : Request} {stage : Stage} (h : Upkept w s)
    (hk : s.calls k = some (.loading (.certify r) f)) :
    Upkept w
      ((s.setFiles (Nginx.stashed f.ids s.files)).setCall k (some (.requesting r stage f))) := by
  have hlive : live (s.setFiles (Nginx.stashed f.ids s.files)).files = fun x => if x ∈ f.ids then
      none else live s.files x :=
    Nginx.live_stashed f.nodup
  refine h.write (· ∈ f.ids) rfl (fun x hx => ?_) (fun x _ ho => (owed_some hk ho).elim)
    fun x hx _ => Or.inr (Or.inr ⟨_, rfl, hx⟩)
  refine ⟨Placed.of_eq rfl, fun _ => rfl, ?_⟩
  rw [hlive]
  exact if_neg hx

/-! Certificates: a row refers to none that is still to be issued. -/

/-- The row an update has read and will write back. -/
def Call.readRow : Call → Option Row
  | updating _ _ row | awaiting _ _ row _ => some row
  | _ => none

structure Known (s : State) : Prop where
  unissued : ∀ n, s.nextCertificate ≤ n → s.tables.certificates n = none
  pos : 0 < s.nextCertificate
  rows : ∀ id, certificateId (s.rowOf id) < s.nextCertificate
  calls : ∀ k c row, s.calls k = some c → c.readRow = some row →
    certificateId row < s.nextCertificate

theorem Known.setCall (h : Known s)
    (hrow : ∀ c row, call = some c → c.readRow = some row → certificateId row < s.nextCertificate) :
    Known (s.setCall k call) := by
  refine ⟨h.unissued, h.pos, h.rows, fun k' c row hc => ?_⟩
  change Function.update s.calls k call k' = some c at hc
  rcases eq_or_ne k' k with rfl | hne
  · rw [Function.update_self] at hc
    exact hrow c row hc
  · rw [Function.update_of_ne hne] at hc
    exact h.calls k' c row hc

theorem Known.leave (h : Known s) (hnone : call.bind Call.readRow = none) :
    Known (s.setCall k call) := by
  refine h.setCall ?_
  rintro c row rfl hr
  rw [Option.bind_some, hr] at hnone
  cases hnone

theorem Known.setHost (h : Known s) {host : Host}
    (hrow : certificateId host.row < s.nextCertificate) :
    Known (s.setHost id host) := by
  refine ⟨h.unissued, h.pos, fun x => ?_, h.calls⟩
  change certificateId (Function.update s.hosts id host x).row < s.nextCertificate
  rcases eq_or_ne x id with rfl | hx
  · rw [Function.update_self]
    exact hrow
  · rw [Function.update_of_ne hx]
    exact h.rows x

theorem Known.setTables (h : Known s)
    (hcertificates : tables.certificates = s.tables.certificates) :
    Known (s.setTables tables) :=
  ⟨fun n hn => (congrFun hcertificates n).trans (h.unissued n hn), h.pos, h.rows, h.calls⟩

/-- The hosts' rows keep their certificates. -/
theorem Known.setHosts (h : Known s) {hosts : HostId → Host}
    (hrows : ∀ id, certificateId (hosts id).row = certificateId (s.rowOf id)) :
    Known { s with hosts := hosts } := by
  refine ⟨h.unissued, h.pos, fun x => ?_, h.calls⟩
  change certificateId (hosts x).row < s.nextCertificate
  rw [hrows x]
  exact h.rows x

theorem Known.configure {text : String} (h : Known s) : Known (s.configure text id row) := by
  have hfiles : Known (s.setFiles (Nginx.configured id text s.files)).reload :=
    ⟨h.unissued, h.pos, h.rows, h.calls⟩
  exact hfiles.setHost (h.rows id)

theorem Known.bulk {texts : HostId → String} (h : Known s) : Known (s.bulk texts f) := by
  have hrows : ∀ x, certificateId (s.clearedRow f x) = certificateId (s.rowOf x) := by
    intro x
    unfold State.clearedRow
    split <;> rfl
  refine ⟨h.unissued, h.pos, fun x => ?_, h.calls⟩
  change certificateId (s.clearedRow f x) < s.nextCertificate
  rw [hrows x]
  exact h.rows x

theorem patched_certificate {payload : Payload} :
    patched payload row (.column .certificateId) = (payload.columns .certificateId).or
      (row (.column .certificateId)) := by
  simp [patched, Row.of, LostUpdates.cleanSslHstsData, LostUpdates.offWithoutHsts,
    LostUpdates.offWithoutSsl,
    LostUpdates.offWithoutCertificate, LostUpdates.forceOff, LostUpdates.assigned, Row.columns]

theorem certificateId_patched {payload : Payload} (h : Known s)
    (hrow : certificateId row < s.nextCertificate)
    (hknown : certificateKnown s payload row) :
    certificateId (patched payload row) < s.nextCertificate := by
  rw [certificateId, patched_certificate]
  cases hv : payload.columns .certificateId with
  | none => exact hrow
  | some v =>
    rw [Option.some_or]
    rcases hknown v hv with he | he | he
    · rw [he]
      exact hrow
    · rw [he]
      exact h.pos
    · by_contra hge
      rw [h.unissued _ (Nat.not_lt.mp hge)] at he
      cases he

theorem known_step (hs : Step w s a t) (h : Known s) : Known t := by
  cases hs with
  | update hk hex =>
    refine h.setCall ?_
    rintro c row ⟨⟩ ⟨⟩
    exact h.rows _
  | request hk | certificateOf hk =>
    refine h.setCall ?_
    rintro c row ⟨⟩ ⟨⟩
    exact h.calls _ _ _ hk rfl
  | patch hk _ hknown =>
    refine Known.leave ?_ rfl
    exact h.setHost (certificateId_patched h (h.calls _ _ _ hk rfl) hknown)
  | configureUpdated | configureEnabled => exact Known.leave h.configure rfl
  | sync | patchEnabled | patchDisabled | patchDeleted =>
    refine Known.leave ?_ rfl
    exact h.setHost (h.rows _)
  | writeList =>
    rename_i write writes _
    refine Known.leave (h.setTables ?_) rfl
    cases write <;> rfl
  | markList => exact Known.leave (h.setTables rfl) rfl
  | unlink =>
    refine Known.leave (h.setHosts fun x => ?_) rfl
    split <;> rfl
  | bulkRelisted | bulkUnlinked | bulkInUse => exact Known.leave h.bulk rfl
  | createCertificate =>
    refine Known.leave ⟨fun n hn => ?_, Nat.succ_pos _, fun x => Nat.lt_succ_of_lt (h.rows x),
      fun k c row hc hr => Nat.lt_succ_of_lt (h.calls k c row hc hr)⟩ rfl
    exact (Function.update_of_ne (Nat.ne_of_gt hn) ..).trans (h.unissued n (Nat.le_of_succ_le hn))
  | remove | stash =>
    refine Known.leave ?_ rfl
    exact ⟨h.unissued, h.pos, h.rows, h.calls⟩
  | reload =>
    rename_i k r _
    have hfiles : Known s.reload := ⟨h.unissued, h.pos, h.rows, h.calls⟩
    refine hfiles.leave ?_
    cases r <;> rfl
  | reloadChallenge =>
    have hfiles : Known s.reload := ⟨h.unissued, h.pos, h.rows, h.calls⟩
    exact hfiles.leave rfl
  | countHosts =>
    refine h.leave ?_
    split <;> rfl
  | _ => exact h.leave rfl

/-! One step keeps the confs owed or right. -/

theorem mem_fetchWithList :
    x ∈ (fetchWithList w s listId).ids ↔ Exists w s x ∧ accessListId (s.rowOf x) = listId := by
  simp [fetchWithList, fetchWhere, State.fetch, Exists, and_assoc]

/-- A new certificate is no host's. -/
theorem upkept_addCertificate (h : Upkept w s) (hknown : Known s) (hk : s.calls k = none) :
    Upkept w (s.addCertificate.setCall k call) := by
  refine h.write (fun _ => False) rfl (fun x _ => ⟨Placed.of_eq rfl, fun _ => ?_, rfl⟩)
    (fun x _ ho => absurd ho (owed_none hk)) (fun x hx => hx.elim)
  exact rendered_eq (Function.update_of_ne (Nat.ne_of_lt (hknown.rows x)) ..) rfl

theorem upkept_step (hs : Step w s a t) (hok : Steady w s a) (hknown : Known s) (h : Upkept w s) :
    Upkept w t := by
  cases hs with
  | update hk | enable hk | disable hk | delete hk | updateList hk | deleteList hk =>
    exact h.start hk
  | request hk | certificateOf hk | notSynced hk | readUnlisted hk | readInUse hk | issued hk =>
    exact h.free hk fun _ ho => ho
  | patch hk => exact upkept_patch h hk hok
  | reread hk => exact h.next hk fun x ho => ⟨ho.1, ho.2.2⟩
  | read hk =>
    rename_i goal f relation _ _
    refine h.next hk fun x ho => ?_
    cases goal <;> exact ho
  | patchEnabled hk =>
    exact h.writeHost hk (fun _ _ ho => ho) fun _ => Or.inr (Or.inr ⟨_, rfl, rfl⟩)
  | skip hk _ hoff =>
    refine h.free hk ?_
    rintro x ⟨rfl, hon⟩
    rw [hoff] at hon
    cases hon
  | configureUpdated hk => exact upkept_configure h hk rfl (fun _ hx ho => hx ho.1) hok
  | configureEnabled hk => exact upkept_configure h hk rfl (fun _ hx ho => hx ho) hok
  | sync hk hentries => exact upkept_sync h hk hentries hok
  | patchDisabled hk =>
    exact h.writeHost hk (fun _ _ ho => ho) fun _ => Or.inr (Or.inr ⟨_, rfl, rfl⟩)
  | patchDeleted hk =>
    exact h.writeHost hk (fun _ _ ho => ho) fun _ => Or.inr (Or.inr ⟨_, rfl, rfl⟩)
  | remove hk => exact upkept_remove h hk hok
  | reload hk => exact Upkept.free (s := s.reload) h hk fun _ ho => ho
  | writeList hk => exact upkept_writeList h hk
  | countHosts hk =>
    refine h.next hk fun x ho => ?_
    split
    · next hempty =>
      have hx := mem_fetchWithList.mpr ⟨ho.1.1, ho.2⟩
      rw [List.isEmpty_iff.mp hempty] at hx
      cases hx
    · exact ho
  | readRelisted hk => exact h.next hk fun x ho => mem_fetchWithList.mpr ⟨ho.1.1, ho.2⟩
  | bulkRelisted hk => exact upkept_bulk h hk rfl (fun _ hx ho => hx ho) hok
  | markList hk => exact upkept_markList h hk hok
  | unlink hk => exact upkept_unlink h hk hok
  | bulkUnlinked hk => exact upkept_bulk h hk rfl (fun _ hx ho => hx ho) hok
  | createCertificate hk => exact upkept_addCertificate h hknown hk
  | stash hk => exact upkept_stash h hk
  | proceed hk => exact h.next hk fun _ ho => ho
  | reloadChallenge hk => exact Upkept.next (s := s.reload) h hk fun _ ho => ho
  | bulkInUse hk => exact upkept_bulk h hk rfl (fun _ hx ho => hx ho) hok

/-! The reloads. -/

/-- The calls with a reload to come. -/
def Call.reloads : Call → Bool
  | reloading _ | requesting .. => true
  | _ => false

/-- nginx has read the confs as they are, or will at a reload of a call under way. -/
def Synced (s : State) : Prop :=
  Kept (fun _ : Unit => s.loaded = live s.files) (fun c _ => c.reloads = true) s.calls

theorem Synced.loaded (h : Synced s) (hcalls : s'.calls = s.calls)
    (hloaded : s'.loaded = live s'.files) :
    Synced (s'.setCall k call) := by
  have hstep : Kept (fun _ : Unit => s'.loaded = live s'.files) (fun c _ => c.reloads = true)
      (Function.update s.calls k call) := Mirror.Kept.step h fun _ _ => Or.inl hloaded
  rw [← hcalls] at hstep
  exact hstep

theorem Synced.owed (h : Synced s) (hcalls : s'.calls = s.calls) (hc : c.reloads = true) :
    Synced (s'.setCall k (some c)) := by
  have hstep : Kept (fun _ : Unit => s'.loaded = live s'.files) (fun c _ => c.reloads = true)
      (Function.update s.calls k (some c)) := Mirror.Kept.step h fun _ _ =>
        Or.inr (Or.inr ⟨c, rfl, hc⟩)
  rw [← hcalls] at hstep
  exact hstep

/-- A step that touches no conf, of a call with no reload to come. -/
theorem Synced.quiet (h : Synced s) (hcalls : s'.calls = s.calls) (hfiles : s'.files = s.files)
    (hloaded : s'.loaded = s.loaded) (hk : ∀ c, s.calls k = some c → c.reloads = false) :
    Synced (s'.setCall k call) := by
  have hstep : Kept (fun _ : Unit => s.loaded = live s.files) (fun c _ => c.reloads = true)
      (Function.update s.calls k call) := by
    refine Mirror.Kept.move h ?_
    rintro _ ⟨c, hc, ho⟩
    cases (hk c hc).symm.trans ho
  rw [← hcalls, ← hfiles, ← hloaded] at hstep
  exact hstep

theorem synced_step (hs : Step w s a t) (h : Synced s) : Synced t := by
  cases hs with
  | configureUpdated | configureEnabled | reload | reloadChallenge => refine h.loaded ?_ ?_ <;> rfl
  | remove | bulkRelisted | bulkUnlinked | stash | proceed | bulkInUse =>
    refine h.owed ?_ ?_ <;> rfl
  | update hk | enable hk | disable hk | delete hk | updateList hk | deleteList hk
      | createCertificate hk =>
    refine h.quiet rfl rfl rfl fun c hc => ?_
    cases hk.symm.trans hc
  | request hk | certificateOf hk | patch hk | reread hk | read hk | patchEnabled hk | skip hk
      | sync hk | notSynced hk
  | patchDisabled hk | patchDeleted hk | writeList hk | countHosts hk | readRelisted hk
      | readUnlisted hk | markList hk
  | unlink hk | readInUse hk | issued hk =>
    refine h.quiet rfl rfl rfl fun c hc => ?_
    cases hk.symm.trans hc
    rfl

/-! Runs. -/

/-- No call is under way, and nginx has read the confs the hosts should have. -/
structure Converged (w : World) (s : State) : Prop where
  calls : ∀ k, s.calls k = none
  known : Known s
  loaded : s.loaded = live s.files
  confs : ∀ id, Right w s id (s.loaded id)

structure Inv (w : World) (s : State) : Prop where
  upkept : Upkept w s
  known : Known s
  synced : Synced s

theorem Converged.inv (h : Converged w s) : Inv w s := by
  refine ⟨fun id => Or.inl ?_, h.known, fun _ => Or.inl h.loaded⟩
  rw [← h.loaded]
  exact h.confs id

theorem inv_step (hs : Step w s a t) (hok : Steady w s a) (h : Inv w s) : Inv w t :=
  ⟨upkept_step hs hok h.known h.upkept, known_step hs h.known, synced_step hs h.synced⟩

theorem Inv.converged (h : Inv w s) (hnone : ∀ k, s.calls k = none) : Converged w s := by
  have hloaded : s.loaded = live s.files := Mirror.Kept.all_good h.synced hnone ()
  refine ⟨hnone, h.known, hloaded, fun id => ?_⟩
  rw [hloaded]
  exact Mirror.Kept.all_good h.upkept hnone id

/-- Where the last call to write a conf writes the right one, the confs follow the database:
whenever no call is left, nginx has the current conf of every active host and none that serves
another. -/
theorem live_confs_follow {xs : List Act} (hstart : Converged w s)
    (hrun : Run (Guarded (Step w) (Steady w)) s xs t)
    (hnone : ∀ k, t.calls k = none) :
    (∀ id, Active w t id → t.loaded id = some (w.template (rendered id (t.rowOf id) t.tables))) ∧
      ∀ id, ¬ Active w t id → Idle w (t.loaded id) := by
  have hstep : ∀ s a t, Step w s a t → Steady w s a → Inv w s → Inv w t :=
    fun _ _ _ hs hok hi => inv_step hs hok hi
  have hdone : Converged w t := (hrun.guarded_invariant hstep hstart.inv).converged hnone
  exact ⟨fun id hid => (hdone.confs id).1 hid, fun id hid => (hdone.confs id).2 hid⟩

/-! One host, and an access list it does not use yet. -/

def sampleTemplate (r : Rendered) : String :=
  if r.enabled then (if r.accessList.isSome then "listen 80; deny all;" else "listen 80;") else ""

def sampleWorld : World := ⟨[1], List.nodup_singleton 1, sampleTemplate⟩

def sampleRow : Row :=
  Row.of (Function.update (Function.update (fun _ => none) .enabled (some (.bool true)))
    (.other "domain_names")
    (some (.array [.str "example.org"]))) fun _ => none

def sampleState : State where
  hosts _ := ⟨sampleRow, false⟩
  tables := ⟨fun _ => none, fun _ => ⟨false, false, false⟩, fun _ => ["eva"], fun _ => []⟩
  nextCertificate := 1
  files id := if id = 1 then ⟨some "listen 80;", none, none, none⟩ else ⟨none, none, none, none⟩
  loaded id := if id = 1 then some "listen 80;" else none
  calls _ := none

theorem sample_converged : Converged sampleWorld sampleState := by
  have hloaded : sampleState.loaded = live sampleState.files := by
    funext id
    by_cases hid : id = 1 <;> simp [sampleState, live, hid]
  have hknown : Known sampleState := {
    unissued := fun _ _ => rfl
    pos := Nat.one_pos
    rows := fun _ => Nat.one_pos
    calls := fun _ _ _ hc => absurd hc (Option.some_ne_none _).symm }
  refine ⟨fun _ => rfl, hknown, hloaded, fun id => ?_⟩
  by_cases hid : id = 1
  · subst hid
    exact ⟨fun _ => rfl, fun h => absurd ⟨⟨List.mem_singleton_self 1, rfl⟩, rfl⟩ h⟩
  · refine ⟨fun h => absurd (List.mem_singleton.mp h.1.1) hid, fun _ => Or.inl ?_⟩
    simp [sampleState, hid]

def setting (c : Column) (v : Value) : Payload :=
  ⟨Function.update (fun _ => none) c (some v), none, false⟩

def readRelations (k : ℕ) : List Act :=
  [.read k .certificate, .read k .accessList, .read k .items, .read k .clients]

/-- The update that gives the host the list. -/
def protect (k : ℕ) : List Act :=
  [.update k 1 (setting .accessListId (.num 5)), .patch k, .reread k] ++ readRelations k ++
    [.configure k, .finish k]

theorem protect_alone :
    ∃ t, Run (Guarded (Step sampleWorld) (Steady sampleWorld)) sampleState (protect 0) t ∧
    (∀ k, t.calls k = none) ∧ Active sampleWorld t 1 ∧ accessListId (t.rowOf 1) = 5 :=
  ⟨_, .cons ⟨.update rfl ⟨List.mem_singleton_self 1, rfl⟩, trivial⟩
    (.cons ⟨.patch rfl rfl (by rintro v ⟨⟩), by
      rintro id payload row ⟨⟩ -
      exact Or.inl rfl⟩
    (.cons ⟨.reread rfl ⟨List.mem_singleton_self 1, rfl⟩, trivial⟩
    (.cons ⟨.read rfl (by decide) trivial, trivial⟩ (.cons ⟨.read rfl (by decide) trivial, trivial⟩
    (.cons ⟨.read rfl (by decide) (show Relation.accessList ∉ [_, _] by decide), trivial⟩
    (.cons ⟨.read rfl (by decide) (show Relation.accessList ∉ [_] by decide), trivial⟩
    (.cons ⟨.configureUpdated rfl rfl rfl, by
      rintro c ids f ⟨⟩ ⟨⟩ id hid
      obtain rfl := List.mem_singleton.mp hid
      exact Or.inl ⟨fun _ => rfl, fun h => absurd ⟨⟨List.mem_singleton_self 1, rfl⟩, rfl⟩ h⟩⟩
    (.cons ⟨.notSynced rfl rfl, trivial⟩ (.nil _))))))))), by
      intro k
      by_cases hk : k = 0 <;>
        simp [State.setCall, State.setRow, State.setHost, State.configure, State.setMeta,
        State.reload, State.setFiles, sampleState, hk],
    ⟨⟨List.mem_singleton_self 1, rfl⟩, rfl⟩, rfl⟩

theorem protect_alone_follows :
    ∃ t, Run (Step sampleWorld) sampleState (protect 0) t ∧ (∀ k, t.calls k = none) ∧
    accessListId (t.rowOf 1) = 5 ∧
    t.loaded 1 = some (sampleTemplate (rendered 1 (t.rowOf 1) t.tables)) := by
  obtain ⟨t, hrun, hnone, hactive, hlist⟩ := protect_alone
  exact ⟨t, hrun.of_guarded, hnone, hlist,
    (live_confs_follow sample_converged hrun hnone).1 1 hactive⟩

/-- The list is assigned while certbot runs. -/
def protectWhileIssuing : List Act :=
  [.createCertificate 0 ["example.org"], .readHosts 0] ++ readRelations 0 ++
    [.stash 0, .proceed 0, .reload 0, .proceed 0] ++ protect 1 ++
      [.proceed 0, .bulk 0, .reload 0, .finish 0]

/-- An update with `enabled: false`. -/
def disableByUpdate : List Act :=
  [.update 0 1 (setting .enabled (.bool false)), .patch 0, .reread 0] ++ readRelations 0 ++
    [.skip 0]

/-- The access list is lost, and a disabled host is still served. -/
theorem confs_left_behind : Converged sampleWorld sampleState ∧
    (∃ t, Run (Step sampleWorld) sampleState protectWhileIssuing t ∧ (∀ k, t.calls k = none) ∧
      Active sampleWorld t 1 ∧
      accessListId (t.rowOf 1) = 5 ∧
      t.loaded 1 ≠ some (sampleTemplate (rendered 1 (t.rowOf 1) t.tables))) ∧
    ∃ t, Run (Step sampleWorld) sampleState disableByUpdate t ∧ (∀ k, t.calls k = none) ∧
    ¬ Active sampleWorld t 1 ∧
      ¬ Idle sampleWorld (t.loaded 1) := by
  refine ⟨sample_converged, ⟨_, .cons (.createCertificate rfl) (.cons (.readInUse rfl)
    (.cons (.read rfl (by decide) trivial) (.cons (.read rfl (by decide) trivial)
    (.cons (.read rfl (by decide) (show Relation.accessList ∉ [_, _] by decide))
    (.cons (.read rfl (by decide) (show Relation.accessList ∉ [_] by decide))
    (.cons (.stash rfl rfl)
      (.cons (.proceed rfl rfl) (.cons (.reloadChallenge rfl) (.cons (.proceed rfl rfl)
    (.cons (.update rfl ⟨List.mem_singleton_self 1, rfl⟩) (.cons (.patch rfl rfl (by rintro v ⟨⟩))
    (.cons (.reread rfl ⟨List.mem_singleton_self 1, rfl⟩)
    (.cons (.read rfl (by decide) trivial) (.cons (.read rfl (by decide) trivial)
    (.cons (.read rfl (by decide) (show Relation.accessList ∉ [_, _] by decide))
    (.cons (.read rfl (by decide) (show Relation.accessList ∉ [_] by decide))
    (.cons (.configureUpdated rfl rfl rfl) (.cons (.notSynced rfl rfl)
    (.cons (.proceed rfl rfl) (.cons (.bulkInUse rfl) (.cons (.reload rfl) (.cons (.issued rfl)
    (.nil _))))))))))))))))))))))), ?_, ⟨⟨List.mem_singleton_self 1, rfl⟩, rfl⟩, rfl, ?_⟩, ⟨_,
    .cons (.update rfl ⟨List.mem_singleton_self 1, rfl⟩) (.cons (.patch rfl rfl nofun)
    (.cons (.reread rfl ⟨List.mem_singleton_self 1, rfl⟩)
    (.cons (.read rfl (by decide) trivial) (.cons (.read rfl (by decide) trivial)
    (.cons (.read rfl (by decide) (show Relation.accessList ∉ [_, _] by decide))
    (.cons (.read rfl (by decide) (show Relation.accessList ∉ [_] by decide))
    (.cons (.skip rfl rfl rfl) (.nil _)))))))), ?_, ?_, ?_⟩⟩
  · intro k
    by_cases h0 : k = 0 <;> by_cases h1 : k = 1 <;>
      simp [State.setCall, State.setRow, State.setHost, State.configure,
      State.setMeta, State.reload, State.setFiles, State.addCertificate, State.bulk, sampleState,
        h0, h1]
  · intro he
    exact absurd (Option.some.inj he) (show "listen 80;" ≠ "listen 80; deny all;" by decide)
  · intro k
    by_cases h0 : k = 0 <;> simp [State.setCall, State.setRow, State.setHost, sampleState, h0]
  · rintro ⟨-, hon⟩
    cases hon
  · rintro (hconf | ⟨r, hoff, hconf⟩)
    · cases hconf
    · have htext : sampleTemplate r = "" := by
        rw [sampleTemplate, hoff]
        rfl
      exact absurd ((Option.some.inj hconf).trans htext) (show "listen 80;" ≠ "" by decide)

end FloppyGuard.Hosts.LiveConf
