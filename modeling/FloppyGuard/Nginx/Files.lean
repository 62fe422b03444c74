import FloppyGuard.Lib.Effect
import FloppyGuard.Lib.Text
import Mathlib.Data.List.Infix
import Mathlib.Logic.Function.Basic

/-! The conf files of the hosts of one type (`nginx.js`) and the functions that move them.
Copies, renames and deletes of files succeed. -/
namespace FloppyGuard.Nginx

abbrev HostId := ℕ

/-- `<id>.conf`, `<id>.conf.bak`, `<id>.conf.err` and `<id>.conf.disabled`. -/
structure HostFiles where
  conf : Option String
  bak : Option String
  err : Option String
  disabled : Option String
deriving DecidableEq

abbrev Files := HostId → HostFiles

/-- What the `*.conf` include of nginx reads. -/
abbrev Live := HostId → Option String

def live (files : Files) : Live := fun id => (files id).conf

/-- The conf a host falls back to: the live one, else the stashed one. -/
def previous (h : HostFiles) : Option String := h.conf.or h.disabled

namespace HostFiles

/-- Whether a working conf was saved, and the files after it. -/
def backupConfig (h : HostFiles) : Bool × HostFiles :=
  match h.conf, h.disabled with
  | some c, _ => (true, { h with bak := some c })
  | none, some c => (true, { h with disabled := none, bak := some c })
  | none, none => (false, h)

def stashConfig (h : HostFiles) : HostFiles :=
  match h.conf with
  | some c => { h with conf := none, disabled := some c }
  | none => h

def restoreConfigBackup (h : HostFiles) : Bool × HostFiles :=
  match h.bak with
  | some c => (true, { h with conf := some c, bak := none })
  | none => (false, h)

def dropConfigBackup (h : HostFiles) : HostFiles := { h with bak := none }

def deleteConfig (h : HostFiles) (deleteErrFile : Bool) : HostFiles :=
  if deleteErrFile then { h with conf := none, err := none, disabled := none }
  else { h with conf := none }

def renameConfigAsError (h : HostFiles) : HostFiles :=
  match h.conf with
  | some c => { h with conf := none, err := some c }
  | none => h

end HostFiles

/-- How a render of a host fails: its message, and the text it leaves in the conf file when it has
begun to write. -/
structure RenderFailure where
  message : String
  written : Option String

/-- One attempt to render a host. -/
inductive Render
  | complete (text : String)
  | fails (failure : RenderFailure)

/-- `generateConfig` -/
def HostFiles.generateConfig (h : HostFiles) : Render → Except String Unit × HostFiles
  | .complete text => (.ok (), { h with conf := some text })
  | .fails failure => (.error failure.message, { h with conf := failure.written.or h.conf })

/-- `split("\n")` without the lines about the container's error log. -/
def cleanOutput (message : String) : String :=
  let about : List Char := "/var/log/nginx/error.log".toList
  String.ofList
    (['\n'].intercalate ((message.toList.splitOn '\n').filter fun line => decide ¬about <:+: line))

/-! What is saved and what is put back. -/

variable {h : HostFiles}

theorem backupConfig_fst : h.backupConfig.1 = (previous h).isSome := by
  unfold HostFiles.backupConfig previous
  cases h.conf <;> cases h.disabled <;> rfl

theorem backupConfig_bak (hs : h.backupConfig.1 = true) : h.backupConfig.2.bak = previous h := by
  obtain ⟨conf, bak, err, disabled⟩ := h
  cases conf <;> cases disabled <;> simp_all [HostFiles.backupConfig, previous]

theorem backupConfig_unsaved (hs : h.backupConfig.1 = false) : h.backupConfig.2 = h := by
  obtain ⟨conf, bak, err, disabled⟩ := h
  cases conf <;> cases disabled <;> simp_all [HostFiles.backupConfig]

end FloppyGuard.Nginx
