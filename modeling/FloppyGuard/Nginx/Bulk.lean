import FloppyGuard.Lib.Cells
import FloppyGuard.Nginx.Files

/-! `bulkGenerateConfigs`: render all, test, and on a failure render and test one host at a time. -/
namespace FloppyGuard.Nginx

open Cells

/-- `nginx -t` on the live confs, and what the template engine does with each host in either
attempt. `refused` holds the hosts whose render fails in that attempt. -/
structure BulkOutside where
  test : Live → Except String Unit
  text : HostId → String
  refusedFirst : HostId → Option RenderFailure
  refusedAgain : HostId → Option RenderFailure

namespace BulkOutside
variable (out : BulkOutside)

def renderOf (refused : HostId → Option RenderFailure) (id : HostId) : Render :=
  match refused id with
  | some failure => .fails failure
  | none => .complete (out.text id)

def renderFirst : HostId → Render := out.renderOf out.refusedFirst

def renderAgain : HostId → Render := out.renderOf out.refusedAgain

end BulkOutside

/-- A host that did not get its new conf, and whether it had one before. -/
structure Rejected where
  host : HostId
  kept : Bool
  output : String

inductive BulkResult
  | resolved
  | previousBroken (output : String)
  | rejected (hosts : List Rejected)

namespace BulkResult

def rejectedLine (hostType : String) (r : Rejected) : String :=
  "- " ++ hostType ++ " #" ++ toString r.host ++ ": " ++
    if r.kept then "rejected, its previous configuration is still active"
    else
      ("rejected and it had no previous configuration, so it is OFFLINE until it is fixed and " ++
       "saved again")

/-- The text of the `ValidationError`. -/
def message (hostType : String) : BulkResult → Option String
  | resolved => none
  | previousBroken output => some <|
    "nginx -t fails even with the previous " ++ hostType ++
      " configuration, so none of the regenerated configs were " ++
      "applied (the previous ones are still in place). Fix the nginx configuration first.\n" ++
        output
  | rejected hosts => some <|
    "nginx rejected the regenerated configuration of " ++ toString hosts.length ++ " " ++
      hostType ++
      "(s); the other hosts were updated. Fix the settings of these hosts and save them again:\n" ++
      "\n".intercalate (hosts.map (rejectedLine hostType)) ++ "\n" ++
        "\n".intercalate (hosts.map Rejected.output)

/-- The hosts a rejection names. -/
def named : BulkResult → List HostId
  | resolved | previousBroken _ => []
  | rejected hosts => hosts.map Rejected.host

end BulkResult

/-- `backups[i]` of each host, and the files after them. -/
def backupAll : List HostId → Files → List (HostId × Bool) × Files
  | [], files => ([], files)
  | id :: ids, files =>
    let backup := (files id).backupConfig
    let rest := backupAll ids (Function.update files id backup.2)
    ((id, backup.1) :: rest.1, rest.2)

/-- The pre-call state of a host back in the live set, keeping the `.bak`. -/
def HostFiles.putBack (h : HostFiles) (saved : Bool) : HostFiles :=
  if saved then { h with conf := h.bak } else h.deleteConfig false

def putBackAll (backups : List (HostId × Bool)) (files : Files) : Files :=
  backups.foldl (fun files b => Function.update files b.1 ((files b.1).putBack b.2)) files

def dropBackups (backups : List (HostId × Bool)) (files : Files) : Files :=
  backups.foldl
    (fun files b => if b.2 then Function.update files b.1 (files b.1).dropConfigBackup else files)
      files

/-- Every render is awaited; the first failure in the order of the hosts is the one reported. -/
def generateAll (out : BulkOutside) (list : List HostId) (files : Files) :
    Except String Unit × Files :=
  (match list.findSome? out.refusedFirst with
    | some failure => .error failure.message
    | none => .ok (),
   onAll (fun id h => (h.generateConfig (out.renderFirst id)).2) list files)

/-- One host of the second round: its new conf if it renders and passes, else its previous state. -/
def retryHost (out : BulkOutside) (b : HostId × Bool) (files : Files) : Option Rejected × Files :=
  let generated := (files b.1).generateConfig (out.renderAgain b.1)
  let rendered := Function.update files b.1 generated.2
  let back (err : String) : Option Rejected × Files :=
    (some ⟨b.1, b.2, cleanOutput err⟩,
      Function.update rendered b.1 (generated.2.renameConfigAsError.putBack b.2))
  match generated.1 with
  | .error err => back err
  | .ok _ =>
    match out.test (live rendered) with
    | .error err => back err
    | .ok _ => (none, rendered)

def retryAll (out : BulkOutside) : List (HostId × Bool) → Files → List Rejected × Files
  | [], files => ([], files)
  | b :: backups, files =>
    let first := retryHost out b files
    let rest := retryAll out backups first.2
    (first.1.toList ++ rest.1, rest.2)

/-- After a failed batch: back to the state before the call, then one host at a time. -/
def isolate (out : BulkOutside) (backups : List (HostId × Bool)) (files : Files) :
    BulkResult × Files :=
  let files := putBackAll backups files
  match out.test (live files) with
  | .error baseErr => (.previousBroken (cleanOutput baseErr), dropBackups backups files)
  | .ok _ =>
    let retried := retryAll out backups files
    (if retried.1.isEmpty then .resolved else .rejected retried.1, dropBackups backups retried.2)

def bulkGenerateConfigs (out : BulkOutside) (list : List HostId) (files : Files) :
    BulkResult × Files :=
  if list.isEmpty then (.resolved, files)
  else
    let backedUp := backupAll list files
    let generated := generateAll out list backedUp.2
    match generated.1 with
    | .error _ => isolate out backedUp.1 generated.2
    | .ok _ =>
      match out.test (live generated.2) with
      | .error _ => isolate out backedUp.1 generated.2
      | .ok _ => (.resolved, dropBackups backedUp.1 generated.2)

/-! Each step, host by host. -/

variable {out : BulkOutside} {list : List HostId} {files : Files} {id : HostId} {saved : Bool}

/-- Whether a host has a conf to fall back to. -/
def isSaved (files : Files) (id : HostId) : Bool := (previous (files id)).isSome

theorem backupAll_eq (hn : list.Nodup) : backupAll list files =
    (list.map fun id => (id, isSaved files id),
      onAll (fun _ h => h.backupConfig.2) list files) := by
  induction list generalizing files with
  | nil => rfl
  | cons id ids ih =>
    obtain ⟨hid, hn⟩ := List.nodup_cons.mp hn
    have hflags :
      (ids.map fun id' => (id', isSaved (Function.update files id (files id).backupConfig.2) id')) =
        ids.map fun id' => (id', isSaved files id') := by
      refine List.map_congr_left fun id' hm => ?_
      have hne : id' ≠ id := fun he => hid (he ▸ hm)
      rw [isSaved, isSaved, Function.update_of_ne hne]
    rw [backupAll, ih hn, hflags, List.map_cons, onAll_cons, isSaved, ← backupConfig_fst]

theorem putBackAll_eq (flag : HostId → Bool) :
    putBackAll (list.map fun id => (id, flag id)) files = onAll (fun id h => h.putBack (flag id))
      list files := by
  rw [putBackAll, List.foldl_map]
  rfl

theorem dropBackups_eq (flag : HostId → Bool) :
    dropBackups (list.map fun id => (id, flag id)) files =
    onAll (fun id h => if flag id then h.dropConfigBackup else h) list files := by
  rw [dropBackups, List.foldl_map, onAll]
  congr 1
  funext files id
  cases flag id <;> simp

theorem generateAll_snd : (generateAll out list files).2 =
    onAll (fun id h => (h.generateConfig (out.renderFirst id)).2) list files := rfl

/-- A host whose live conf is what `putBack` would put there. -/
def Put (files : Files) (b : HostId × Bool) : Prop :=
  (files b.1).conf = if b.2 then (files b.1).bak else none

theorem putBack_renameConfigAsError {h : HostFiles} :
    (h.renameConfigAsError.putBack saved).conf = (if saved then h.bak else none) ∧
      (h.renameConfigAsError.putBack saved).bak = h.bak := by
  unfold HostFiles.renameConfigAsError
  cases saved <;> split <;> simp [HostFiles.putBack, HostFiles.deleteConfig]

theorem generateConfig_bak {h : HostFiles} {render : Render} :
    (h.generateConfig render).2.bak = h.bak := by
  cases render <;> rfl

/-- Whether the host's new conf is live after the second round. -/
def Renewed (out : BulkOutside) (t : Files) (id : HostId) : Prop :=
  out.refusedAgain id = none ∧ (t id).conf = some (out.text id)

theorem live_update {h : HostFiles} :
    live (Function.update files id h) = Function.update (live files) id h.conf := by
  funext id'
  by_cases hid : id' = id
  · subst hid
    simp [live]
  · simp [live, hid]

/-- What the second round does with one host: it gets its new conf, or is named and stays as it was.
-/
structure Settles (out : BulkOutside) (files : Files) (id : HostId) (r : Option Rejected)
    (t : Files) : Prop where
  frame : ∀ id', id' ≠ id → t id' = files id'
  passes : out.test (live t) = .ok ()
  bak : (t id).bak = (files id).bak
  settled : r = none ∧ Renewed out t id ∨
    r.map Rejected.host = some id ∧ ¬ Renewed out t id ∧ (t id).conf = (files id).conf

/-- A new conf that is rejected is taken out again. -/
theorem settles_back (hput : Put files (id, saved)) (htest : out.test (live files) = .ok ())
    {r : Rejected}
    (hr : r.host = id) (hnew : out.refusedAgain id = none → (files id).conf ≠ some (out.text id))
    {h : HostFiles}
    (hbak : h.bak = (files id).bak) :
    Settles out files id (some r)
      (Function.update files id (h.renameConfigAsError.putBack saved)) := by
  have hconf : (h.renameConfigAsError.putBack saved).conf = (files id).conf := by
    rw [putBack_renameConfigAsError.1, hbak]
    exact hput.symm
  refine ⟨fun id' hne => Function.update_of_ne hne _ _, ?_, ?_, .inr ⟨congrArg some hr, ?_, ?_⟩⟩
  · rw [live_update, hconf]
    exact (congrArg out.test (Function.update_eq_self id (live files))).trans htest
  · rw [Function.update_self, putBack_renameConfigAsError.2, hbak]
  · rintro ⟨hok, ht⟩
    rw [Function.update_self, hconf] at ht
    exact hnew hok ht
  · rw [Function.update_self, hconf]

theorem settles_retryHost {b : HostId × Bool} (hput : Put files b)
    (htest : out.test (live files) = .ok ()) :
    Settles out files b.1 (retryHost out b files).1 (retryHost out b files).2 := by
  obtain ⟨id, saved⟩ := b
  simp only [retryHost, Function.update_idem]
  cases hrefused : out.refusedAgain id with
  | some failure =>
    have hrender : out.renderAgain id = .fails failure := by
      simp [BulkOutside.renderAgain, BulkOutside.renderOf, hrefused]
    simp only [hrender, HostFiles.generateConfig]
    refine settles_back hput htest ?_ (fun hok => ?_) rfl
    · rfl
    · simp [hrefused] at hok
  | none =>
    have hrender : out.renderAgain id = .complete (out.text id) := by
      simp [BulkOutside.renderAgain, BulkOutside.renderOf, hrefused]
    simp only [hrender, HostFiles.generateConfig]
    split
    · next err hfails =>
      dsimp only
      refine settles_back hput htest ?_ (fun _ hlive => ?_) rfl
      · rfl
      · -- a conf that was live before makes the live set that has passed
        have hsame := Function.update_eq_self id (live files)
        rw [live, hlive] at hsame
        rw [live_update, hsame] at hfails
        exact absurd (hfails.symm.trans htest) nofun
    · next hpasses =>
      dsimp only
      refine ⟨fun id' hne => Function.update_of_ne hne _ _, hpasses, ?_, .inl ⟨rfl, hrefused, ?_⟩⟩
      · rw [Function.update_self]
      · rw [Function.update_self]

/-- The second round as a whole. -/
structure AllSettle (out : BulkOutside) (files : Files) (backups : List (HostId × Bool))
    (rejected : List Rejected)
    (t : Files) : Prop where
  frame : ∀ id, id ∉ backups.map Prod.fst → t id = files id
  passes : out.test (live t) = .ok ()
  bak : ∀ id, (t id).bak = (files id).bak
  named : ∀ id, id ∈ rejected.map Rejected.host ↔ id ∈ backups.map Prod.fst ∧ ¬ Renewed out t id
  conf : ∀ id ∈ backups.map Prod.fst, Renewed out t id ∨ (t id).conf = (files id).conf

theorem allSettle_retryAll {backups : List (HostId × Bool)} (hn : (backups.map Prod.fst).Nodup)
    (hput : ∀ b ∈ backups, Put files b) (htest : out.test (live files) = .ok ()) :
    AllSettle out files backups (retryAll out backups files).1 (retryAll out backups files).2 := by
  induction backups generalizing files with
  | nil => exact ⟨fun _ _ => rfl, htest, fun _ => rfl, by simp [retryAll], by simp⟩
  | cons b backups ih =>
    obtain ⟨hb, hn⟩ := List.nodup_cons.mp hn
    have hfirst : Settles out files b.1 (retryHost out b files).1 (retryHost out b files).2 :=
      settles_retryHost (hput b (by simp)) htest
    rw [retryAll]
    generalize retryHost out b files = first at hfirst
    obtain ⟨r, mid⟩ := first
    dsimp only at hfirst ⊢
    have hmid : ∀ b' ∈ backups, Put mid b' := by
      intro b' hm
      have hne : b'.1 ≠ b.1 := fun he => hb (he ▸ List.mem_map_of_mem hm)
      rw [Put, hfirst.frame b'.1 hne]
      exact hput b' (List.mem_cons_of_mem _ hm)
    have hrest := ih hn hmid hfirst.passes
    generalize retryAll out backups mid = rest at hrest
    obtain ⟨rejected, t⟩ := rest
    dsimp only at hrest ⊢
    have hkept : t b.1 = mid b.1 := hrest.frame b.1 hb
    have hrenewed : Renewed out t b.1 ↔ Renewed out mid b.1 := by rw [Renewed, Renewed, hkept]
    refine ⟨?_, hrest.passes, ?_, ?_, ?_⟩
    · intro id hid
      rw [List.map_cons, List.mem_cons, not_or] at hid
      rw [hrest.frame id hid.2, hfirst.frame id hid.1]
    · intro id
      rw [hrest.bak id]
      by_cases hid : id = b.1
      · rw [hid, hfirst.bak]
      · rw [hfirst.frame id hid]
    · intro id
      rw [List.map_append, List.mem_append, hrest.named, List.map_cons, List.mem_cons]
      rcases hfirst.settled with ⟨rfl, hnew⟩ | ⟨hr, hold, -⟩
      · have hne : ¬ Renewed out t id → id ≠ b.1 := fun hnot he => hnot (he ▸ hrenewed.mpr hnew)
        simp only [Option.toList_none, List.map_nil, List.not_mem_nil, false_or]
        exact and_congr_left fun hnot => (or_iff_right (hne hnot)).symm
      · obtain ⟨r', rfl, hr'⟩ := Option.map_eq_some_iff.mp hr
        simp only [Option.toList_some, List.map_singleton, List.mem_singleton, hr', or_and_right]
        have hold' : ¬ Renewed out t b.1 := mt hrenewed.mp hold
        exact or_congr_left ⟨fun he => ⟨he, he ▸ hold'⟩, fun h => h.1⟩
    · intro id hid
      rw [List.map_cons, List.mem_cons] at hid
      by_cases he : id = b.1
      · subst he
        rcases hfirst.settled with ⟨-, hnew⟩ | ⟨-, -, hold⟩
        · exact .inl (hrenewed.mpr hnew)
        · exact .inr (by rw [hkept, hold])
      · rw [← hfirst.frame id he]
        exact hrest.conf id (hid.resolve_left he)

/-! The call as a whole. -/

/-- The live set before the call, with the stashed confs of its hosts put back. -/
def baseLive (list : List HostId) (files : Files) : Live := fun id =>
  if id ∈ list then previous (files id) else (files id).conf

/-- The live set with every host's new conf. -/
def newLive (out : BulkOutside) (list : List HostId) (files : Files) : Live := fun id =>
  if id ∈ list then some (out.text id) else (files id).conf

/-- The batch renders and passes as a whole. -/
def BatchPasses (out : BulkOutside) (list : List HostId) (files : Files) : Prop :=
  (∀ id ∈ list, out.refusedFirst id = none) ∧ out.test (newLive out list files) = .ok ()

/-- Files on the way: backed up, and the other hosts untouched. -/
structure BackedUp (list : List HostId) (files mid : Files) : Prop where
  bak : ∀ id ∈ list, (mid id).bak = (files id).backupConfig.2.bak
  frame : ∀ id, id ∉ list → mid id = files id

theorem putBack_spec {h : HostFiles} (hbak : h.bak = (files id).backupConfig.2.bak) :
    (h.putBack (isSaved files id)).conf = previous (files id) ∧
      (h.putBack (isSaved files id)).bak = (files id).backupConfig.2.bak ∧
      (previous (files id) = if isSaved files id then (files id).backupConfig.2.bak else none) := by
  cases hs : isSaved files id with
  | true =>
    have hp : (files id).backupConfig.2.bak = previous (files id) :=
      backupConfig_bak (backupConfig_fst.trans hs)
    simp [HostFiles.putBack, hbak, hp]
  | false =>
    have hp : previous (files id) = none := by simpa [isSaved] using hs
    simp [HostFiles.putBack, HostFiles.deleteConfig, hbak, hp]

theorem live_putBackAll {mid : Files} (hn : list.Nodup) (hmid : BackedUp list files mid) :
    live (putBackAll (list.map fun id => (id, isSaved files id)) mid) = baseLive list files ∧
      BackedUp list files (putBackAll (list.map fun id => (id, isSaved files id)) mid) := by
  rw [putBackAll_eq]
  refine ⟨?_, fun id hid => ?_, fun id hid => ?_⟩
  · funext id
    by_cases hid : id ∈ list
    · rw [live, onAll_of_mem hn hid, baseLive, if_pos hid]
      exact (putBack_spec (hmid.bak id hid)).1
    · rw [live, onAll_of_notMem hid, baseLive, if_neg hid, hmid.frame id hid]
  · rw [onAll_of_mem hn hid]
    exact (putBack_spec (hmid.bak id hid)).2.1
  · rw [onAll_of_notMem hid, hmid.frame id hid]

theorem dropBackups_spec {mid : Files} (hn : list.Nodup) (hmid : BackedUp list files mid) :
    let t := dropBackups (list.map fun id => (id, isSaved files id)) mid
    live t = live mid ∧ (∀ id, id ∉ list → t id = files id) ∧
      ∀ id ∈ list, (t id).bak = if isSaved files id then none else (files id).bak := by
  rw [dropBackups_eq]
  refine ⟨?_, fun id hid => ?_, fun id hid => ?_⟩
  · funext id
    by_cases hid : id ∈ list
    · rw [live, live, onAll_of_mem hn hid]
      split <;> rfl
    · rw [live, live, onAll_of_notMem hid]
  · rw [onAll_of_notMem hid, hmid.frame id hid]
  · rw [onAll_of_mem hn hid]
    split
    · rfl
    · next hs =>
      have hunsaved : (files id).backupConfig.1 = false :=
        backupConfig_fst.trans (by simpa [isSaved] using hs)
      rw [hmid.bak id hid, backupConfig_unsaved hunsaved]

/-- The host's new conf is live: the last attempt to render it was complete, and nginx reads its
text. -/
def GotNew (out : BulkOutside) (list : List HostId) (files t : Files) (id : HostId) : Prop :=
  (¬ BatchPasses out list files → out.refusedAgain id = none) ∧ (t id).conf = some (out.text id)

/-- What a call leaves behind: no working conf is lost, no backup stays, and the result tells which
hosts got their new conf. -/
structure Isolated (out : BulkOutside) (list : List HostId) (files : Files) (result : BulkResult)
    (t : Files) :
    Prop where
  frame : ∀ id, id ∉ list → t id = files id
  valid : out.test (baseLive list files) = .ok () → out.test (live t) = .ok ()
  conf : ∀ id ∈ list, (t id).conf = previous (files id) ∨ GotNew out list files t id
  backups : ∀ id ∈ list, (t id).bak = if isSaved files id then none else (files id).bak
  outcome : match result with
    | .resolved => ∀ id ∈ list, GotNew out list files t id
    | .rejected _ => (∃ id ∈ list, ¬ GotNew out list files t id) ∧
      ∀ id, id ∈ result.named ↔ id ∈ list ∧ ¬ GotNew out list files t id
    | .previousBroken _ => out.test (baseLive list files) ≠ .ok () ∧ ¬ BatchPasses out list files ∧
      live t = baseLive list files
  broken : list ≠ [] → out.test (baseLive list files) ≠ .ok () → ¬ BatchPasses out list files →
    ∃ output, result = .previousBroken output

/-- The second round, after a batch that did not pass. -/
theorem isolated_isolate {mid : Files} (hn : list.Nodup) (hmid : BackedUp list files mid)
    (hbatch : ¬ BatchPasses out list files) :
    let r := isolate out (list.map fun id => (id, isSaved files id)) mid
    Isolated out list files r.1 r.2 := by
  obtain ⟨hlive, hput⟩ := live_putBackAll hn hmid
  simp only [isolate]
  generalize putBackAll (list.map fun id => (id, isSaved files id)) mid = base at hlive hput
  cases htest : out.test (live base) with
  | error baseErr =>
    obtain ⟨hdrop, hframe, hbak⟩ := dropBackups_spec hn hput
    have hbase : out.test (baseLive list files) ≠ .ok () := by simp [← hlive, htest]
    refine ⟨hframe, fun h => absurd h hbase, fun id hid => .inl ?_, hbak,
      ⟨hbase, hbatch, hdrop.trans hlive⟩,
      fun _ _ _ => ⟨_, rfl⟩⟩
    have hconf := congrFun (hdrop.trans hlive) id
    rwa [baseLive, if_pos hid] at hconf
  | ok _ =>
    have hkeys : (list.map fun id => (id, isSaved files id)).map Prod.fst = list := by
      rw [List.map_map]
      exact List.map_id list
    have hputs : ∀ b ∈ list.map fun id => (id, isSaved files id), Put base b := by
      rintro b hb
      obtain ⟨id, hid, rfl⟩ := List.mem_map.mp hb
      have hconf := congrFun hlive id
      rw [baseLive, if_pos hid] at hconf
      rw [Put, hput.bak id hid]
      exact hconf.trans (putBack_spec (hput.bak id hid)).2.2
    have hs : AllSettle out base _ _ _ := allSettle_retryAll (hkeys.symm ▸ hn) hputs htest
    dsimp only
    generalize retryAll out (list.map fun id => (id, isSaved files id)) base = retried at hs
    obtain ⟨rejected, t⟩ := retried
    dsimp only at hs ⊢
    have hframe' : ∀ id, id ∉ list → t id = base id := fun id hid => hs.frame id (hkeys.symm ▸ hid)
    have hdropped := dropBackups_spec hn
      ⟨fun id hid => (hs.bak id).trans (hput.bak id hid), fun id hid =>
        (hframe' id hid).trans (hput.frame id hid)⟩
    have hconf := hs.conf
    have hnamed := hs.named
    rw [hkeys] at hconf
    simp only [hkeys] at hnamed
    generalize dropBackups (list.map fun id => (id, isSaved files id)) t = final at hdropped
    obtain ⟨hdrop, hframe, hbak⟩ := hdropped
    have hgot : ∀ id, GotNew out list files final id ↔ Renewed out t id := by
      intro id
      have hsame : (final id).conf = (t id).conf := congrFun hdrop id
      rw [GotNew, Renewed, hsame]
      exact and_congr_left' (forall_prop_of_true hbatch)
    have hvalid : out.test (live final) = .ok () := hdrop ▸ hs.passes
    refine ⟨hframe, fun _ => hvalid, fun id hid => ?_, hbak, ?_, ?_⟩
    · rcases hconf id hid with hnew | hold
      · exact .inr ((hgot id).mpr hnew)
      · have hbase := congrFun hlive id
        rw [baseLive, if_pos hid] at hbase
        exact .inl ((congrFun hdrop id).trans (hold.trans hbase))
    · cases rejected with
      | nil =>
        intro id hid
        by_contra hnot
        exact List.not_mem_nil ((hnamed id).mpr ⟨hid, mt (hgot id).mpr hnot⟩)
      | cons r rejected =>
        refine ⟨⟨r.host, ?_⟩, fun id => ?_⟩
        · obtain ⟨hid, hnot⟩ := (hnamed r.host).mp (List.mem_map_of_mem (List.mem_cons_self ..))
          exact ⟨hid, mt (hgot r.host).mp hnot⟩
        · rw [hgot]
          exact hnamed id
    · intro _ hbroken
      exact absurd (hlive ▸ htest) hbroken

/-- Bad hosts are isolated: whatever fails to render, and whatever nginx says of which confs. -/
theorem bulkGenerateConfigs_isolates (hn : list.Nodup) :
    Isolated out list files (bulkGenerateConfigs out list files).1
      (bulkGenerateConfigs out list files).2 := by
  have hbacked : BackedUp list files (backupAll list files).2 := by
    rw [backupAll_eq hn]
    refine ⟨fun id hid => ?_, fun id hid => ?_⟩ <;> dsimp only
    · rw [onAll_of_mem hn hid]
    · rw [onAll_of_notMem hid]
  have hrendered : BackedUp list files (generateAll out list (backupAll list files).2).2 := by
    refine ⟨fun id hid => ?_, fun id hid => ?_⟩ <;> dsimp only [generateAll]
    · rw [onAll_of_mem hn hid, generateConfig_bak, hbacked.bak id hid]
    · rw [onAll_of_notMem hid, hbacked.frame id hid]
  have hflags : (backupAll list files).1 = list.map fun id => (id, isSaved files id) := by
    rw [backupAll_eq hn]
  unfold bulkGenerateConfigs
  split
  · next hempty =>
    obtain rfl := List.isEmpty_iff.mp hempty
    have hbase : baseLive [] files = live files := funext fun id => if_neg List.not_mem_nil
    exact ⟨fun _ _ => rfl, fun h => hbase ▸ h, nofun, nofun, nofun, fun h => absurd rfl h⟩
  · dsimp only
    have hlive : (∀ id ∈ list, out.refusedFirst id = none) →
        live (generateAll out list (backupAll list files).2).2 = newLive out list files := by
      intro hall
      funext id
      by_cases hid : id ∈ list
      · rw [live, newLive, if_pos hid, generateAll_snd, onAll_of_mem hn hid]
        simp [HostFiles.generateConfig, BulkOutside.renderFirst, BulkOutside.renderOf, hall id hid]
      · rw [live, newLive, if_neg hid, hrendered.frame id hid]
    rw [hflags]
    split
    · next err hfails =>
      refine isolated_isolate hn hrendered fun hbatch => ?_
      have hnone : list.findSome? out.refusedFirst = none := List.findSome?_eq_none_iff.mpr hbatch.1
      simp [generateAll, hnone] at hfails
    · next hok =>
      have hall : ∀ id ∈ list, out.refusedFirst id = none := by
        refine List.findSome?_eq_none_iff.mp ?_
        cases hsome : list.findSome? out.refusedFirst with
        | none => rfl
        | some failure => simp [generateAll, hsome] at hok
      split
      · next err hfails =>
        refine isolated_isolate hn hrendered fun hbatch => ?_
        rw [hlive hall, hbatch.2] at hfails
        cases hfails
      · next hpasses =>
        rw [hlive hall] at hpasses
        have hbatch : BatchPasses out list files := ⟨hall, hpasses⟩
        obtain ⟨hdrop, hframe, hbak⟩ := dropBackups_spec hn hrendered
        have hgot : ∀ id ∈ list, GotNew out list files
            (dropBackups (list.map fun id => (id, isSaved files id))
              (generateAll out list (backupAll list files).2).2) id := by
          intro id hid
          refine ⟨fun h => absurd hbatch h, ?_⟩
          have hconf := congrFun (hdrop.trans (hlive hall)) id
          rwa [newLive, if_pos hid] at hconf
        refine ⟨hframe, fun _ => ?_, fun id hid => .inr (hgot id hid), hbak, hgot, fun _ _ h =>
          absurd hbatch h⟩
        exact (congrArg out.test (hdrop.trans (hlive hall))).trans hpasses

/-- Two hosts with confs; the second one's new settings do not render. -/
def sampleOutside : BulkOutside where
  test _ := .ok ()
  text id := "server " ++ toString id
  refusedFirst id := if id = 2 then some ⟨"Forbidden directive", none⟩ else none
  refusedAgain id := if id = 2 then some ⟨"Forbidden directive", some "serv"⟩ else none

def sampleFiles : Files :=
  fun id => if id ≤ 2 then ⟨some "old", none, none, none⟩ else ⟨none, none, none, none⟩

theorem bulkGenerateConfigs_isolates_sample :
    let r := bulkGenerateConfigs sampleOutside [1, 2] sampleFiles
    Isolated sampleOutside [1, 2] sampleFiles r.1 r.2 ∧ r.1.named = [2] ∧
      live r.2 1 = some "server 1" ∧
      live r.2 2 = some "old" :=
  ⟨bulkGenerateConfigs_isolates (by decide), by decide +kernel⟩

/-- When nginx rejects the confs from before the call too, the call rejects and names no host. -/
theorem bulkGenerateConfigs_names_nobody :
    let r :=
  bulkGenerateConfigs { sampleOutside with test := fun _ => .error "emerg" } [1, 2] sampleFiles
    (r.1.message "proxy_host").isSome ∧ r.1.named = [] ∧ live r.2 1 = some "old" ∧
      live r.2 2 = some "old" := by
  decide +kernel

end FloppyGuard.Nginx
