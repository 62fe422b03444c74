import FloppyGuard.WireGuard.PlanPreview

/-! `mergeBackupIntoLive` of `wireguard-plan.js`: a backup merged into the store, for what is live.
-/
namespace FloppyGuard.WireGuard.Patch

def Value.truthy : Value → Bool
  | .text s => s ≠ ""
  | .texts _ => true
  | .flag b => b
  | .raw json => json ≠ "null" && json ≠ "0"

/-- `RESTORE_KEEP_IF_MISSING` -/
def restoreKeepIfMissing : List String := ["name", "type", "importedNetworks"]

/-- The entry lacks the field; an empty name counts as none. -/
def missing (key : String) (value : Option Value) : Bool :=
  if key = "name" then !value.any Value.truthy else value.isNone

/-- One field of the current entry, unless it is empty. -/
def keepCurrent (current merged : Entry) (key : String) : Entry :=
  match current.get? key with
  | some v => if missing key (merged.get? key) && v ≠ .text "" then merged.set key v else merged
  | none => merged

def mergeRestoredLink (current : Option Entry) (backupEntry : Entry) : Entry :=
  match current with
  | none => backupEntry
  | some current => restoreKeepIfMissing.foldl (keepCurrent current) backupEntry

/-- A set of ids. -/
abbrev Ids := { ids : List String // ids.Nodup }

structure Merge where
  store : Store
  restoredLinks : List String
  keptLinks : List String
  skippedLinks : List String
  skippedInterfaces : List String

section Merge
variable (current backup : Store) (liveLinkIds liveInterfaceNames : Ids)

def restoreLink (links : Entries) (id : String) : Entries :=
  match backup.links.get? id with
  | some entry => links.set id (mergeRestoredLink (links.get? id) entry)
  | none => links

def restoreInterface (interfaces : Entries) (e : String × Entry) : Entries :=
  if e.1 ∈ liveInterfaceNames.1 then interfaces.set e.1 e.2 else interfaces

def mergeBackupIntoLive : Merge where
  store :=
    { interfaces :=
        backup.interfaces.entries.foldl (restoreInterface liveInterfaceNames) current.interfaces
      links := liveLinkIds.1.foldl (restoreLink backup) current.links }
  restoredLinks := liveLinkIds.1.filter (· ∈ backup.links.keys)
  keptLinks := liveLinkIds.1.filter (· ∉ backup.links.keys)
  skippedLinks := backup.links.keys.filter (· ∉ liveLinkIds.1)
  skippedInterfaces := backup.interfaces.keys.filter (· ∉ liveInterfaceNames.1)

end Merge

variable {current backup : Store} {liveLinkIds liveInterfaceNames : Ids} {id name field : String}
  {entry bak : Entry}

/-! One link. -/

/-- What the merge makes of the value of such a field. -/
def kept (current : Option Entry) (key : String) (value : Option Value) : Option Value :=
  if missing key value then ((current.bind (·.get? key)).filter (· ≠ .text "")).or value else value

theorem get?_keepCurrent (cur merged : Entry) (key k : String) :
    (keepCurrent cur merged key).get? k =
    if k = key then kept (some cur) key (merged.get? k) else merged.get? k := by
  unfold keepCurrent kept
  rw [Option.bind_some]
  cases hcur : cur.get? key with
  | none => simp
  | some v =>
    dsimp only
    by_cases hk : k = key
    · subst hk
      by_cases hv : v = .text ""
      · simp [hv, Option.filter_some]
      · cases missing k (merged.get? k) <;> simp [hv, Table.get?_set, Option.filter_some]
    · rw [if_neg hk]
      split
      · rw [Table.get?_set, if_neg hk]
      · rfl

theorem kept_none (key : String) (value : Option Value) : kept none key value = value := by
  unfold kept
  split <;> rfl

/-- A restored link field by field. -/
theorem get?_mergeRestoredLink (cur : Option Entry) (entry : Entry) (field : String) :
    (mergeRestoredLink cur entry).get? field =
      if field ∈ restoreKeepIfMissing then kept cur field (entry.get? field)
      else entry.get? field := by
  cases cur with
  | none => simp only [mergeRestoredLink, kept_none, ite_self]
  | some cur =>
    have hstep := get?_keepCurrent cur
    split
    · next hfield =>
      exact Table.get?_foldl_of_mem id hstep (by decide) hfield
    · next hfield =>
      exact Table.get?_foldl_of_notMem id hstep (by simpa using hfield)

/-! The stores. -/

theorem get?_restoreLink (backup : Store) (links : Entries) (id k : String) :
    (restoreLink backup links id).get? k =
    if k = id then ((backup.links.get? id).map (mergeRestoredLink (links.get? k))).or (links.get? k)
    else links.get? k := by
  unfold restoreLink
  cases backup.links.get? id with
  | none => simp
  | some entry =>
    dsimp only
    rw [Table.get?_set]
    split
    · next hk => simp [hk]
    · rfl

theorem get?_restoreInterface (liveInterfaceNames : Ids) (interfaces : Entries) (e : String × Entry)
    (k : String) :
    (restoreInterface liveInterfaceNames interfaces e).get? k =
      if k = e.1 then (if e.1 ∈ liveInterfaceNames.1 then some e.2 else interfaces.get? k)
      else interfaces.get? k := by
  unfold restoreInterface
  split
  · next hlive =>
    rw [Table.get?_set]
  · next hlive => simp

/-- A link of the merged store. -/
theorem get?_links (id : String) :
    (mergeBackupIntoLive current backup liveLinkIds liveInterfaceNames).store.links.get? id =
    if id ∈ liveLinkIds.1 then
      ((backup.links.get? id).map (mergeRestoredLink (current.links.get? id))).or
      (current.links.get? id)
    else current.links.get? id := by
  have hstep := get?_restoreLink backup
  split
  · next hlive =>
    exact Table.get?_foldl_of_mem (fun id => id) (f := restoreLink backup)
      (g := fun id o => ((backup.links.get? id).map (mergeRestoredLink o)).or o) hstep
      (by rw [List.map_id']; exact liveLinkIds.2) hlive
  · next hlive =>
    exact Table.get?_foldl_of_notMem (fun id => id) (f := restoreLink backup)
      (g := fun id o => ((backup.links.get? id).map (mergeRestoredLink o)).or o) hstep
        (by rwa [List.map_id'])

/-- An interface of the merged store. -/
theorem get?_interfaces (name : String) :
    (mergeBackupIntoLive current backup liveLinkIds liveInterfaceNames).store.interfaces.get? name =
      if name ∈ liveInterfaceNames.1 then
        (backup.interfaces.get? name).or (current.interfaces.get? name)
      else current.interfaces.get? name := by
  have hstep := get?_restoreInterface liveInterfaceNames
  by_cases hkey : name ∈ backup.interfaces.keys
  · obtain ⟨entry, hentry⟩ := Table.mem_keys.mp hkey
    have hmem := Table.mem_entries_iff.mpr hentry
    have hfold := Table.get?_foldl_of_mem Prod.fst (t := current.interfaces)
      (f := restoreInterface liveInterfaceNames)
      (g := fun e o => if e.1 ∈ liveInterfaceNames.1 then some e.2 else o) hstep
        backup.interfaces.nodup hmem
    rw [hentry]
    exact hfold
  · have hfold := Table.get?_foldl_of_notMem Prod.fst (t := current.interfaces)
      (f := restoreInterface liveInterfaceNames)
      (g := fun e o => if e.1 ∈ liveInterfaceNames.1 then some e.2 else o) hstep hkey
    rw [Table.get?_eq_none.mpr hkey, Option.none_or, ite_self]
    exact hfold

/-- The restore touches only what is live and in the backup. -/
structure TouchesOnly (current backup : Store) (liveLinkIds liveInterfaceNames : Ids) (m : Merge) :
    Prop where
  links : ∀ id ∉ liveLinkIds.1, m.store.links.get? id = current.links.get? id
  interfaces : ∀ name ∉ liveInterfaceNames.1, m.store.interfaces.get? name = current.interfaces.get?
    name
  linkKeys : ∀ id ∈ m.store.links.keys, id ∈ current.links.keys ∨ id ∈ liveLinkIds.1 ∧
    id ∈ backup.links.keys
  interfaceKeys : ∀ name ∈ m.store.interfaces.keys,
    name ∈ current.interfaces.keys ∨ name ∈ liveInterfaceNames.1 ∧ name ∈ backup.interfaces.keys
  unlisted : ∀ id ∈ liveLinkIds.1, id ∉ backup.links.keys →
    m.store.links.get? id = current.links.get? id
  restored : ∀ id ∈ liveLinkIds.1, ∀ entry, backup.links.get? id = some entry →
    ∃ merged, m.store.links.get? id = some merged ∧ ∀ field, merged.get? field =
      if field ∈ restoreKeepIfMissing then kept (current.links.get? id) field (entry.get? field)
      else entry.get? field
  nodup : (m.restoredLinks ++ m.keptLinks ++ m.skippedLinks).Nodup
  parts : ∀ id, id ∈ m.restoredLinks ++ m.keptLinks ++ m.skippedLinks ↔
    id ∈ liveLinkIds.1 ∨ id ∈ backup.links.keys ∧ id ∉ liveLinkIds.1

theorem mem_parts (id : String) :
    let m := mergeBackupIntoLive current backup liveLinkIds liveInterfaceNames
    id ∈ m.restoredLinks ++ m.keptLinks ++ m.skippedLinks ↔
      id ∈ liveLinkIds.1 ∨ id ∈ backup.links.keys ∧ id ∉ liveLinkIds.1 := by
  simp only [mergeBackupIntoLive, List.mem_append, List.mem_filter, decide_eq_true_eq]
  tauto

theorem nodup_parts : let m := mergeBackupIntoLive current backup liveLinkIds liveInterfaceNames
    (m.restoredLinks ++ m.keptLinks ++ m.skippedLinks).Nodup := by
  intro m
  have hapart (id : String) (h : id ∈ m.restoredLinks) : id ∉ m.keptLinks := by
    intro h'
    exact of_decide_eq_true (List.mem_filter.mp h').2 (of_decide_eq_true (List.mem_filter.mp h).2)
  have hlive (id : String) (h : id ∈ m.restoredLinks ++ m.keptLinks) : id ∈ liveLinkIds.1 := by
    rcases List.mem_append.mp h with h | h
    · exact (List.mem_filter.mp h).1
    · exact (List.mem_filter.mp h).1
  refine ((liveLinkIds.2.filter _).append (liveLinkIds.2.filter _) hapart).append
    (backup.links.nodup.filter _) ?_
  intro id h h'
  exact of_decide_eq_true (List.mem_filter.mp h').2 (hlive id h)

/-- A key of a merged table comes from the current one, or is live and in the backup. -/
theorem key_of_live {merged current backup : Entries} {o : Option Entry} {live : List String}
    {key : String}
    (ho : backup.get? key = none → o = none)
    (h : merged.get? key = if key ∈ live then o.or (current.get? key) else current.get? key)
    (hkey : key ∈ merged.keys) : key ∈ current.keys ∨ key ∈ live ∧ key ∈ backup.keys := by
  obtain ⟨entry, hentry⟩ := Table.mem_keys.mp hkey
  rw [h] at hentry
  by_cases hcur : key ∈ current.keys
  · exact Or.inl hcur
  · rw [Table.get?_eq_none.mpr hcur] at hentry
    split at hentry
    · next hlive =>
      refine Or.inr ⟨hlive, ?_⟩
      by_contra hbak
      rw [ho (Table.get?_eq_none.mpr hbak)] at hentry
      cases hentry
    · cases hentry

theorem mergeBackupIntoLive_touchesOnly (current backup : Store)
    (liveLinkIds liveInterfaceNames : Ids) :
    TouchesOnly current backup liveLinkIds liveInterfaceNames
      (mergeBackupIntoLive current backup liveLinkIds liveInterfaceNames) := by
  constructor
  · intro id hid
    rw [get?_links, if_neg hid]
  · intro name hname
    rw [get?_interfaces, if_neg hname]
  · exact fun id => key_of_live (fun hbak => by rw [hbak]; rfl) (get?_links id)
  · exact fun name => key_of_live id (get?_interfaces name)
  · intro id hid hbak
    rw [get?_links, if_pos hid, Table.get?_eq_none.mpr hbak]
    rfl
  · intro id hid entry hentry
    refine ⟨mergeRestoredLink (current.links.get? id) entry, ?_, get?_mergeRestoredLink _ _⟩
    rw [get?_links, if_pos hid, hentry]
    rfl
  · exact nodup_parts
  · exact mem_parts

def unnamed : Store := ⟨.empty, Table.empty.set "wg0:a" (Table.empty.set "name" (.text ""))⟩

def unnamedBackup : Store := ⟨.empty, Table.empty.set "wg0:a" .empty⟩

/-- A stored name may be empty, since control characters are stripped. Such a name is not kept. -/
theorem empty_name_not_kept : stripLinkNameControlChars "\x07" = "" ∧
    ∃ merged,
    (mergeBackupIntoLive unnamed unnamedBackup ⟨["wg0:a"], by decide⟩
      ⟨[], by decide⟩).store.links.get? "wg0:a" =
      some merged ∧ ¬ ∀ field ∈ restoreKeepIfMissing, merged.get? field =
        if missing field ((unnamedBackup.links.entry "wg0:a").get? field) then
          (unnamed.links.entry "wg0:a").get? field
        else (unnamedBackup.links.entry "wg0:a").get? field := by
  refine ⟨by decide, _, rfl, fun h => ?_⟩
  exact absurd (h "name" (by decide)) (by decide)

end FloppyGuard.WireGuard.Patch
