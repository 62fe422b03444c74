import FloppyGuard.Nginx.Bulk
import FloppyGuard.Nginx.Configure

/-! What is live after `configure`, `bulkGenerateConfigs` and a stash when `nginx -t` accepts and
nothing fails. -/
namespace FloppyGuard.Nginx

open Cells

def accepting (text : String) : Outside where
  test _ := .ok ()
  assertSafeHostFields := .ok ()
  render := .complete text
  patchAccepted := .ok ()
  patchRejected := .ok ()
  reloadTested := .ok ()

def acceptingAll (text : HostId → String) : BulkOutside where
  test _ := .ok ()
  text := text
  refusedFirst _ := none
  refusedAgain _ := none

variable {files : Files} {id : HostId} {list : List HostId} {text : String}
  {texts : HostId → String}

/-- The files after an accepted `configure`. -/
def configured (id : HostId) (text : String) (files : Files) : Files :=
  ((configure id (accepting text)).run.run files).2

def regenerated (list : List HostId) (texts : HostId → String) (files : Files) : Files :=
  (bulkGenerateConfigs (acceptingAll texts) list files).2

def stashed (list : List HostId) (files : Files) : Files :=
  onAll (fun _ h => h.stashConfig) list files

def deleted (id : HostId) (files : Files) : Files :=
  Function.update files id ((files id).deleteConfig false)

theorem live_configured :
    live (configured id text files) = Function.update (live files) id (some text) := by
  have hfiles : configured id text files =
      Function.update
        (Function.update (Function.update (Function.update files id (files id).backupConfig.2) id _)
          id _)
        id _ := rfl
  funext id'
  by_cases hid : id' = id
  · subst hid
    rw [hfiles, live, Function.update_self, Function.update_self]
    simp [HostFiles.dropConfigBackup, HostFiles.generateConfig, accepting]
  · rw [hfiles, live, Function.update_of_ne hid, Function.update_of_ne hid,
      Function.update_of_ne hid,
      Function.update_of_ne hid, Function.update_of_ne hid, live]

theorem generateAll_accepted : (generateAll (acceptingAll texts) list files).1 = .ok () := by
  have hnone : list.findSome? (acceptingAll texts).refusedFirst = none := by
    rw [List.findSome?_eq_none_iff]
    intro _ _
    rfl
  rw [generateAll, hnone]

theorem regenerated_eq (hn : list.Nodup) (hlist : list.isEmpty = false) :
    regenerated list texts files =
    onAll (fun id h => if isSaved files id then h.dropConfigBackup else h) list
      (onAll (fun id h => { h with conf := some (texts id) }) list
        (onAll (fun _ h => h.backupConfig.2) list files)) := by
  unfold regenerated bulkGenerateConfigs
  rw [hlist, if_neg Bool.false_ne_true]
  dsimp only
  rw [generateAll_accepted]
  dsimp only [acceptingAll]
  rw [backupAll_eq hn, dropBackups_eq]
  rfl

theorem live_regenerated (hn : list.Nodup) :
    live (regenerated list texts files) = fun id => if id ∈ list then some (texts id)
    else live files id := by
  cases list with
  | nil => rfl
  | cons first rest =>
    funext id
    rw [regenerated_eq hn rfl]
    by_cases hid : id ∈ first :: rest
    · rw [if_pos hid, live, onAll_of_mem hn hid, onAll_of_mem hn hid]
      split <;> rfl
    · rw [if_neg hid, live, onAll_of_notMem hid, onAll_of_notMem hid, onAll_of_notMem hid, live]

theorem live_stashed (hn : list.Nodup) :
    live (stashed list files) = fun id => if id ∈ list then none else live files id := by
  funext id
  by_cases hid : id ∈ list
  · rw [if_pos hid, live, stashed, onAll_of_mem hn hid, HostFiles.stashConfig]
    split
    · rfl
    · assumption
  · rw [if_neg hid, live, stashed, onAll_of_notMem hid, live]

theorem live_deleted : live (deleted id files) = Function.update (live files) id none := live_update

end FloppyGuard.Nginx
