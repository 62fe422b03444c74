import FloppyGuard.Lib.Effect
import FloppyGuard.Lib.Renaming

/-! `cascadeLinkRenames`: agents are bound to links by name, and follow the names of the links
(`renameLinkBinding`). -/
namespace FloppyGuard.RenameCascade

open Effect Renaming

/-- An entry of a list of sites; only a text can be a name. -/
inductive Site
  | name (s : String)
  | other (json : String)
deriving DecidableEq

/-- The column `allowed_sites` as it is parsed; other JSON than a list is left alone. -/
inductive AllowedSites
  | null
  | unreadable (text : String)
  | list (sites : List Site)
deriving DecidableEq

structure Agent where
  wgLinkName : Option String
  allowedSites : AllowedSites
  isDeleted : Bool
deriving DecidableEq

/-- The table of agents. -/
@[ext] structure Agents where
  ids : List ℕ
  nodup : ids.Nodup
  row : ℕ → Agent

def Site.rename (g : String → String) : Site → Site
  | .name s => .name (g s)
  | .other json => .other json

def AllowedSites.names : AllowedSites → List String
  | .list sites => sites.filterMap fun
    | .name s => some s
    | .other _ => none
  | _ => []

def AllowedSites.rename (g : String → String) : AllowedSites → AllowedSites
  | .list sites => .list (sites.map (Site.rename g))
  | sites => sites

def Agents.patch (a : Agents) (i : ℕ) (f : Agent → Agent) : Agents :=
  { a with row := Function.update a.row i (f (a.row i)) }

/-- The database during one call: how many rows it still patches before it stops answering, if it
does. -/
structure Db where
  agents : Agents
  outage : Option ℕ

def query : Effect Db String Unit := do
  if (← get).outage = some 0 then throw "SQLITE_BUSY: database is locked"

def select (p : Agent → Bool) : Effect Db String (List ℕ) := do
  query
  let db ← get
  pure (db.agents.ids.filter fun i => p (db.agents.row i))

def patch (i : ℕ) (f : Agent → Agent) : Effect Db String Unit := do
  query
  modify fun db => ⟨db.agents.patch i f, db.outage.map (· - 1)⟩

/-- The rows of a query, one after the other: those that `p` holds of are patched. -/
def patchEach (p : Agent → Bool) (f : Agent → Agent) : List ℕ → Effect Db String ℕ
  | [] => pure 0
  | i :: is => do
    let db ← get
    if p (db.agents.row i) then
      patch i f
      let n ← patchEach p f is
      pure (n + 1)
    else patchEach p f is

def Agent.isBoundTo (n : String) (a : Agent) : Bool := a.wgLinkName = some n

def Agent.allows (n : String) (a : Agent) : Bool := !a.isDeleted && n ∈ a.allowedSites.names

section Binding
variable (collates : String → String → Bool)

/-- `renameLinkBinding`. The database compares names as its collation does, the loop exactly. -/
def renameLinkBinding (oldName newName : String) : Effect Db String (ℕ × ℕ) :=
  if oldName = "" ∨ newName = "" ∨ oldName = newName then pure (0, 0)
  else do
    let bound ← select fun a => a.wgLinkName.any (collates oldName)
    let wgLinkName ← patchEach (Agent.isBoundTo oldName)
      (fun a => { a with wgLinkName := some newName }) bound
    let agents ← select fun a => !a.isDeleted && a.allowedSites ≠ .null
    let allowedSites ← patchEach (Agent.allows oldName)
      (fun a => { a with allowedSites := a.allowedSites.rename (one (oldName, newName)) }) agents
    pure (wgLinkName, allowedSites)

/-! The cascade. -/

structure Rename where
  oldName : String
  newName : String
  named : oldName ≠ "" ∧ newName ≠ ""
deriving DecidableEq

structure StepError where
  fromName : String
  toName : String
  error : String
deriving DecidableEq

structure Result where
  renames : List Rename
  errors : List StepError
  rolledBack : Bool
deriving DecidableEq

/-- The agents, and the outage each of the calls to come will meet. -/
structure Cascade where
  agents : Agents
  outages : List (Option ℕ)

def run (s : Cascade) (fromName toName : String) : Option StepError × Cascade :=
  let (r, db) :=
    (renameLinkBinding collates fromName toName).run.run ⟨s.agents, s.outages.head?.join⟩
  (match r with
    | .ok _ => none
    | .error e => some ⟨fromName, toName, e⟩, ⟨db.agents, s.outages.tail⟩)

/-- Every step, whatever becomes of the others. -/
def runAll : List (String × String) → Cascade → List StepError × Cascade
  | [], s => ([], s)
  | p :: ps, s =>
    let (e, s) := run collates s p.1 p.2
    let (es, s) := runAll ps s
    (e.toList ++ es, s)

/-- The first phase: up to the first failure, each old name becomes its temporary name. -/
def moveAside (tmp : Rename × ℕ → String) :
    List (Rename × ℕ) → Cascade → List (Rename × ℕ) × Option StepError × Cascade
  | [], s => ([], none, s)
  | r :: rs, s =>
    match run collates s r.1.oldName (tmp r) with
    | (some e, s) => ([], some e, s)
    | (none, s) =>
      let (moved, e, s) := moveAside tmp rs s
      (r :: moved, e, s)

/-- The second phase: a step that fails is tried once more. -/
def moveOn (tmp : Rename × ℕ → String) : List (Rename × ℕ) → Cascade → List StepError × Cascade
  | [], s => ([], s)
  | r :: rs, s =>
    let (e, s) := match run collates s (tmp r) r.1.newName with
      | (none, s) => (none, s)
      | (some _, s) => run collates s (tmp r) r.1.newName
    let (es, s) := moveOn tmp rs s
    (e.toList ++ es, s)

def needsTemp (renames : List Rename) : Bool :=
  renames.any fun r => r.newName ∈ renames.map Rename.oldName

def tmpName (stamp i : ℕ) : String :=
  "__fg_rename_" ++ String.ofList (Nat.toDigits 10 stamp) ++ "_" ++
    String.ofList (Nat.toDigits 10 i) ++ "__"

def cascadeLinkRenames (stamp : ℕ) (renames : List Rename) (s : Cascade) : Result × Cascade :=
  if renames = [] then (⟨renames, [], false⟩, s)
  else if !needsTemp renames then
    let (errors, s) := runAll collates (renames.map fun r => (r.oldName, r.newName)) s
    (⟨renames, errors, false⟩, s)
  else
    let tmp (r : Rename × ℕ) := tmpName stamp r.2
    match moveAside collates tmp renames.zipIdx s with
    | (moved, some e, s) =>
      let (errors, s) := runAll collates (moved.reverse.map fun r => (tmp r, r.1.oldName)) s
      (⟨renames, e :: errors, true⟩, s)
    | (_, none, s) =>
      let (errors, s) := moveOn collates tmp renames.zipIdx s
      (⟨renames, errors, false⟩, s)

end Binding

/-! One row. -/

def Agent.mapLink (g : String → String) (a : Agent) : Agent :=
  { a with wgLinkName := a.wgLinkName.map g }

def Agent.mapSites (g : String → String) (a : Agent) : Agent :=
  { a with allowedSites := if a.isDeleted then a.allowedSites else a.allowedSites.rename g }

/-- The names an agent is bound by, renamed. The list of a deleted agent binds nothing. -/
def Agent.mapNames (g : String → String) (a : Agent) : Agent := (a.mapLink g).mapSites g

/-- The agent is bound by the name. -/
def Agent.Uses (n : String) (a : Agent) : Prop := a.isBoundTo n = true ∨ a.allows n = true

section Rows
variable {g h : String → String} {a b : Agent} {n old new : String}

theorem AllowedSites.names_rename (s : AllowedSites) : (s.rename g).names = s.names.map g := by
  cases s with
  | null => rfl
  | unreadable => rfl
  | list sites =>
    simp only [AllowedSites.rename, AllowedSites.names, List.filterMap_map, List.map_filterMap]
    refine List.filterMap_congr fun x _ => ?_
    cases x <;> rfl

theorem AllowedSites.rename_congr {s : AllowedSites} (hgh : ∀ m ∈ s.names, g m = h m) :
    s.rename g = s.rename h := by
  cases s with
  | null => rfl
  | unreadable => rfl
  | list sites =>
    refine congrArg AllowedSites.list (List.map_congr_left fun x hx => ?_)
    cases x with
    | name m => exact congrArg Site.name (hgh m (List.mem_filterMap.mpr ⟨_, hx, rfl⟩))
    | other => rfl

theorem AllowedSites.rename_rename (s : AllowedSites) :
    (s.rename g).rename h = s.rename (h ∘ g) := by
  cases s with
  | null => rfl
  | unreadable => rfl
  | list sites =>
    refine congrArg AllowedSites.list (List.map_map.trans (List.map_congr_left fun x _ => ?_))
    cases x <;> rfl

theorem AllowedSites.rename_id (s : AllowedSites) : s.rename id = s := by
  cases s with
  | null => rfl
  | unreadable => rfl
  | list sites =>
    refine congrArg AllowedSites.list ((List.map_congr_left fun x _ => ?_).trans sites.map_id)
    cases x <;> rfl

theorem Agent.mapNames_congr (hgh : ∀ m, a.Uses m → g m = h m) : a.mapNames g = a.mapNames h := by
  obtain ⟨link, sites, deleted⟩ := a
  have hlink : link.map g = link.map h := by
    cases link with
    | none => rfl
    | some m => exact congrArg some (hgh m (.inl (by simp [Agent.isBoundTo])))
  cases deleted with
  | true => simp [Agent.mapNames, Agent.mapLink, Agent.mapSites, hlink]
  | false =>
    have hsites : sites.rename g = sites.rename h :=
      AllowedSites.rename_congr fun m hm => hgh m (.inr (by simpa [Agent.allows] using hm))
    simp [Agent.mapNames, Agent.mapLink, Agent.mapSites, hlink, hsites]

theorem Agent.mapNames_mapNames : (a.mapNames g).mapNames h = a.mapNames (h ∘ g) := by
  obtain ⟨link, sites, deleted⟩ := a
  cases deleted <;> simp [Agent.mapNames, Agent.mapLink, Agent.mapSites, AllowedSites.rename_rename]

theorem Agent.mapNames_eq_self (hg : ∀ m, a.Uses m → g m = m) : a.mapNames g = a := by
  refine (Agent.mapNames_congr (h := id) hg).trans ?_
  obtain ⟨link, sites, deleted⟩ := a
  cases deleted <;> simp [Agent.mapNames, Agent.mapLink, Agent.mapSites, AllowedSites.rename_id]

theorem Agent.isBoundTo_mapNames (hg : ∀ m, a.Uses m → (g m = n ↔ m = old)) :
    (a.mapNames g).isBoundTo n = a.isBoundTo old := by
  obtain ⟨link, sites, deleted⟩ := a
  cases link with
  | none => rfl
  | some m =>
    have := hg m (.inl (by simp [Agent.isBoundTo]))
    simpa [Agent.mapNames, Agent.mapLink, Agent.mapSites, Agent.isBoundTo] using this

theorem Agent.allows_mapNames (hg : ∀ m, a.Uses m → (g m = n ↔ m = old)) :
    (a.mapNames g).allows n = a.allows old := by
  obtain ⟨link, sites, deleted⟩ := a
  cases deleted with
  | true => rfl
  | false =>
    have hmem : n ∈ sites.names.map g ↔ old ∈ sites.names := by
      have huses {m : String} (hm : m ∈ sites.names) : Agent.Uses m ⟨link, sites, false⟩ :=
        .inr (by simpa [Agent.allows] using hm)
      rw [List.mem_map]
      constructor
      · rintro ⟨m, hm, he⟩
        exact (hg m (huses hm)).mp he ▸ hm
      · exact fun hm => ⟨old, hm, (hg old (huses hm)).mpr rfl⟩
    simpa [Agent.mapNames, Agent.mapLink, Agent.mapSites, Agent.allows, AllowedSites.names_rename]
      using hmem

/-- What the first loop does to a row. -/
theorem Agent.patch_link : (if a.isBoundTo old then { a with wgLinkName := some new } else a) =
    a.mapLink (one (old, new)) := by
  obtain ⟨link, sites, deleted⟩ := a
  cases link with
  | none => simp [Agent.isBoundTo, Agent.mapLink]
  | some m => by_cases hm : m = old <;> simp [Agent.isBoundTo, Agent.mapLink, one, hm]

/-- What the second loop does to a row. -/
theorem Agent.patch_sites : (if a.allows old then
    { a with allowedSites := a.allowedSites.rename (one (old, new)) } else a) =
      a.mapSites (one (old, new)) := by
  obtain ⟨link, sites, deleted⟩ := a
  cases deleted with
  | true => simp [Agent.allows, Agent.mapSites]
  | false =>
    by_cases hn : old ∈ sites.names
    · simp [Agent.allows, Agent.mapSites, hn]
    · have hid : sites.rename (one (old, new)) = sites := by
        refine (AllowedSites.rename_congr (h := id) fun m hm => ?_).trans sites.rename_id
        exact if_neg fun (he : m = old) => hn (he ▸ hm)
      simp [Agent.allows, Agent.mapSites, hn, hid]

end Rows

/-! One call. -/

namespace Agents

/-- The rows of `js`, each replaced by what `f` makes of it. -/
def mapOn (a : Agents) (js : List ℕ) (f : Agent → Agent) : Agents :=
  { a with row := fun j => if j ∈ js then f (a.row j) else a.row j }

def mapNames (g : String → String) (a : Agents) : Agents := a.mapOn a.ids (Agent.mapNames g)

def boundTo (n : String) (a : Agents) : ℕ := a.ids.countP fun i => (a.row i).isBoundTo n

def allowing (n : String) (a : Agents) : ℕ := a.ids.countP fun i => (a.row i).allows n

/-- A query of `renameLinkBinding` is still to come once `k` rows are patched. -/
def Reaches (n : String) (k : ℕ) (a : Agents) : Prop :=
  k ≤ a.boundTo n ∨ k < a.boundTo n + a.allowing n

instance {n : String} {k : ℕ} {a : Agents} : Decidable (a.Reaches n k) :=
  inferInstanceAs (Decidable (_ ∨ _))

/-- A call with this outage ahead that has to do with the name is cut short. -/
def CutShort (n : String) (outage : Option ℕ) (a : Agents) : Prop :=
  ∃ k, outage = some k ∧ a.Reaches n k

instance {n : String} {outage : Option ℕ} {a : Agents} : Decidable (a.CutShort n outage) :=
  match outage with
  | none => .isFalse (by simp [CutShort])
  | some k => decidable_of_iff (a.Reaches n k) (by simp [CutShort])

end Agents

/-- What a call leaves that stops after `k` patches. -/
structure Stopped (old new : String) (k : ℕ) (a b : Agents) : Prop where
  ids : b.ids = a.ids
  partly : ∀ j, b.row j = a.row j ∨ b.row j = (a.row j).mapLink (one (old, new)) ∨
    b.row j = (a.row j).mapNames (one (old, new))
  untouched : k = 0 → b = a
  touched : 0 < k → ∃ j ∈ a.ids, (b.row j).Uses new
  outer : ∀ j, j ∉ a.ids → b.row j = a.row j

section Calls
variable {p : Agent → Bool} {f : Agent → Agent} {is js : List ℕ} {i k : ℕ} {db : Db} {a : Agents}
  {old new n : String}
  {α : Type} {Q : Except String α → Db → Prop}

theorem ends_query {Q : Except String Unit → Db → Prop} : Ends query db Q ↔
    if db.outage = some 0 then Q (.error "SQLITE_BUSY: database is locked") db
    else Q (.ok ()) db := by
  rw [query, ends_bind, ends_get]
  dsimp only
  split <;> rfl

theorem ends_select {Q : Except String (List ℕ) → Db → Prop} : Ends (select p) db Q ↔
    if db.outage = some 0 then Q (.error "SQLITE_BUSY: database is locked") db
    else Q (.ok (db.agents.ids.filter fun i => p (db.agents.row i))) db := by
  rw [select, ends_bind, ends_query]
  split <;> rfl

theorem ends_patch {Q : Except String Unit → Db → Prop} : Ends (patch i f) db Q ↔
    if db.outage = some 0 then Q (.error "SQLITE_BUSY: database is locked") db
    else Q (.ok ()) ⟨db.agents.patch i f, db.outage.map (· - 1)⟩ := by
  rw [patch, ends_bind, ends_query]
  split <;> rfl

/-- The loop goes through, or stops at the patch the outage meets. -/
def Swept (p : Agent → Bool) (f : Agent → Agent) (is : List ℕ) (db : Db) :
    Except String ℕ → Db → Prop
  | .ok _, t => t = ⟨db.agents.mapOn is fun b => if p b then f b else b,
      db.outage.map (· - is.countP fun j => p (db.agents.row j))⟩ ∧
      ∀ k, db.outage = some k → (is.countP fun j => p (db.agents.row j)) ≤ k
  | .error _, t =>
    ∃ k done, db.outage = some k ∧ (k < is.countP fun j => p (db.agents.row j)) ∧ done <+: is ∧
      t.agents = db.agents.mapOn done (fun b => if p b then f b else b) ∧
      (done.countP fun j => p (db.agents.row j)) = k

theorem ends_patchEach (hn : is.Nodup) : Ends (patchEach p f is) db (Swept p f is db) := by
  induction is generalizing db with
  | nil =>
    rw [patchEach, ends_pure]
    obtain ⟨agents, outage⟩ := db
    cases outage <;> simp [Swept, Agents.mapOn]
  | cons i is ih =>
    obtain ⟨hi, hn⟩ := List.nodup_cons.mp hn
    rw [patchEach, ends_bind, ends_get]
    dsimp only
    split
    · next hp =>
      have hcons : ∀ js : List ℕ, ((i :: js).countP fun j => p (db.agents.row j)) =
          (js.countP fun j => p (db.agents.row j)) + 1 := fun js => List.countP_cons_of_pos hp
      have hrow : ∀ j ∈ is, (db.agents.patch i f).row j = db.agents.row j := fun j hj =>
        Function.update_of_ne (fun he : j = i => hi (he ▸ hj)) _ _
      have hcount : ∀ js, js <+: is → js.countP (fun j => p ((db.agents.patch i f).row j)) =
          js.countP fun j => p (db.agents.row j) := fun js hjs =>
        List.countP_congr fun j hj => by rw [hrow j (hjs.subset hj)]
      have hmap : ∀ js, js <+: is →
        (db.agents.patch i f).mapOn js (fun b => if p b then f b else b) =
          db.agents.mapOn (i :: js) fun b => if p b then f b else b := by
        intro js hjs
        refine congrArg (Agents.mk db.agents.ids db.agents.nodup) (funext fun j => ?_)
        by_cases hj : j ∈ js
        · simp [hj, hrow j (hjs.subset hj)]
        · by_cases hji : j = i
          · subst hji
            simp [hj, Agents.patch, hp]
          · simp [hj, hji, Agents.patch]
      rw [ends_bind, ends_patch]
      split
      · next hout =>
        exact ⟨0, [], hout, by simp [hp], List.nil_prefix, rfl, rfl⟩
      · next hout =>
        dsimp only
        rw [ends_bind]
        refine (ih hn).imp fun r t h => ?_
        cases r with
        | ok n =>
          obtain ⟨rfl, hk⟩ := h
          change Swept p f (i :: is) db (.ok (n + 1)) _
          rw [hcount is List.prefix_rfl] at hk
          refine ⟨?_, fun k hk' => ?_⟩
          · rw [hcount is List.prefix_rfl, hmap is List.prefix_rfl, hcons, Option.map_map]
            change Db.mk _ _ = Db.mk _ _
            refine congrArg (Db.mk _) (congrArg (Option.map · db.outage) (funext fun k => ?_))
            simp only [Function.comp_apply]
            omega
          · have := hk (k - 1) (by rw [hk', Option.map_some])
            have hne : k ≠ 0 := fun he => hout (he ▸ hk')
            rw [hcons]
            omega
        | error e =>
          obtain ⟨k, done, hk, hlt, hdone, hagents, hc⟩ := h
          rw [hcount is List.prefix_rfl] at hlt
          rw [hcount done hdone] at hc
          obtain ⟨k', hk', rfl⟩ := Option.map_eq_some_iff.mp hk
          have hne : k' ≠ 0 := fun he => hout (he ▸ hk')
          refine ⟨k', i :: done, hk', ?_, List.prefix_cons_inj i |>.mpr hdone,
            hagents.trans (hmap done hdone), ?_⟩
          · rw [hcons]
            omega
          · rw [hcons]
            omega
    · next hp =>
      have hcons : ∀ js : List ℕ, ((i :: js).countP fun j => p (db.agents.row j)) =
          js.countP fun j => p (db.agents.row j) := fun js => List.countP_cons_of_neg hp
      have hmap : ∀ js : List ℕ, i ∉ js → db.agents.mapOn js (fun b => if p b then f b else b) =
          db.agents.mapOn (i :: js) fun b => if p b then f b else b := by
        intro js hjs
        refine congrArg (Agents.mk db.agents.ids db.agents.nodup) (funext fun j => ?_)
        by_cases hji : j = i
        · subst hji
          simp [hjs, hp]
        · simp [hji]
      refine (ih hn).imp fun r t h => ?_
      cases r with
      | ok n =>
        obtain ⟨rfl, hk⟩ := h
        refine ⟨?_, ?_⟩
        · rw [hcons, hmap is hi]
        · rwa [hcons]
      | error e =>
        obtain ⟨k, done, hk, hlt, hdone, hagents, hc⟩ := h
        refine ⟨k, i :: done, hk, ?_, List.prefix_cons_inj i |>.mpr hdone, ?_, ?_⟩
        · rwa [hcons]
        · rw [hagents, hmap done fun h => hi (hdone.subset h)]
        · rwa [hcons]

theorem Agents.mapOn_filter {q : Agent → Bool} (h : ∀ b, q b = false → f b = b) :
    a.mapOn (a.ids.filter fun i => q (a.row i)) f = a.mapOn a.ids f := by
  refine congrArg (Agents.mk a.ids a.nodup) (funext fun j => ?_)
  by_cases hj : j ∈ a.ids
  · cases hq : q (a.row j) with
    | true => simp [hj, hq]
    | false => simp [hj, hq, h _ hq]
  · simp [hj]

theorem countP_filter_of_imp {q : Agent → Bool} (h : ∀ b, p b = true → q b = true) :
    ((a.ids.filter fun i => q (a.row i)).countP fun i => p (a.row i)) = a.ids.countP fun i => p
    (a.row i) := by
  rw [List.countP_filter]
  refine List.countP_congr fun j _ => ?_
  rw [Bool.and_eq_true]
  exact ⟨fun hj => hj.1, fun hj => ⟨hj, h _ hj⟩⟩

/-- No row of the list is patched, so none changes. -/
theorem Agents.mapOn_eq_self (h : (js.countP fun j => p (a.row j)) = 0) :
    a.mapOn js (fun b => if p b then f b else b) = a := by
  rw [List.countP_eq_zero] at h
  refine congrArg (Agents.mk a.ids a.nodup) (funext fun j => ?_)
  by_cases hj : j ∈ js
  · simp [hj, h j hj]
  · simp [hj]

theorem Agent.uses_mapLink {b : Agent} (h : b.isBoundTo old = true) :
    (b.mapLink (one (old, new))).isBoundTo new = true := by
  have hlink : b.wgLinkName = some old := by simpa [Agent.isBoundTo] using h
  simp [Agent.isBoundTo, Agent.mapLink, hlink, one]

theorem Agent.uses_mapSites {b : Agent} (h : b.allows old = true) :
    (b.mapSites (one (old, new))).allows new = true := by
  obtain ⟨link, sites, deleted⟩ := b
  cases deleted with
  | true => simp [Agent.allows] at h
  | false =>
    have hold : old ∈ sites.names := by simpa [Agent.allows] using h
    have hnew : new ∈ sites.names.map (one (old, new)) := List.mem_map.mpr ⟨old, hold, if_pos rfl⟩
    simpa [Agent.allows, Agent.mapSites, AllowedSites.names_rename] using hnew

variable {collates : String → String → Bool}

theorem renameLinkBinding_links (a : Agents) (old new : String) (hcoll : ∀ s, collates s s = true) :
    let bound := a.ids.filter fun i => (a.row i).wgLinkName.any (collates old)
    a.mapOn bound (fun b => if b.isBoundTo old then { b with wgLinkName := some new } else b) =
      a.mapOn a.ids (Agent.mapLink (one (old, new))) ∧
    (bound.countP fun i => (a.row i).isBoundTo old) = a.boundTo old := by
  have himp : ∀ b : Agent, b.isBoundTo old = true → b.wgLinkName.any (collates old) = true := by
    intro b hb
    have hlink : b.wgLinkName = some old := by simpa [Agent.isBoundTo] using hb
    simp [hlink, hcoll]
  refine ⟨?_, countP_filter_of_imp himp⟩
  rw [Agents.mapOn_filter (q := fun b => b.wgLinkName.any (collates old))]
  · exact congrArg (a.mapOn a.ids) (funext fun b => Agent.patch_link)
  · intro b hb
    exact if_neg fun hold => by rw [himp b hold] at hb; cases hb

theorem renameLinkBinding_sites (a : Agents) (old new : String) :
    let agents := a.ids.filter fun i => !(a.row i).isDeleted && (a.row i).allowedSites ≠ .null
    a.mapOn agents (fun b => if b.allows old then
        { b with allowedSites := b.allowedSites.rename (one (old, new)) } else b) =
      a.mapOn a.ids (Agent.mapSites (one (old, new))) ∧
    (agents.countP fun i => (a.row i).allows old) = a.allowing old := by
  have himp : ∀ b : Agent, b.allows old = true →
      (!b.isDeleted && b.allowedSites ≠ .null) = true := by
    intro b hb
    obtain ⟨hlive, hmem⟩ := Bool.and_eq_true_iff.mp hb
    have hnull : b.allowedSites ≠ .null := by
      intro he
      simp [he, AllowedSites.names] at hmem
    simpa [hnull] using hlive
  refine ⟨?_, countP_filter_of_imp himp⟩
  rw [Agents.mapOn_filter (q := fun b => !b.isDeleted && b.allowedSites ≠ .null)]
  · exact congrArg (a.mapOn a.ids) (funext fun b => Agent.patch_sites)
  · intro b hb
    exact if_neg fun hold => by rw [himp b hold] at hb; cases hb

theorem Stopped.links (hdone : js <+: a.ids.filter fun i => (a.row i).wgLinkName.any (collates old))
    (hk : (js.countP fun i => (a.row i).isBoundTo old) = k) :
    Stopped old new k a (a.mapOn js fun b => if b.isBoundTo old then
      { b with wgLinkName := some new } else b) where
  ids := rfl
  partly j := by
    by_cases hj : j ∈ js
    · exact .inr (.inl ((if_pos hj).trans Agent.patch_link))
    · exact .inl (if_neg hj)
  untouched h := Agents.mapOn_eq_self (hk.trans h)
  touched h := by
    obtain ⟨j, hj, hold⟩ := List.countP_pos_iff.mp (hk.symm ▸ h)
    refine ⟨j, (List.mem_filter.mp (hdone.subset hj)).1, .inl ?_⟩
    change Agent.isBoundTo new (if j ∈ js then _ else _) = true
    rw [if_pos hj, Agent.patch_link]
    exact Agent.uses_mapLink hold
  outer j hj := if_neg fun hjs => hj (List.mem_filter.mp (hdone.subset hjs)).1

theorem Stopped.sites {b : Agents} (hb : b = a.mapOn a.ids (Agent.mapLink (one (old, new))))
    (hdone : js <+: b.ids.filter fun i => !(b.row i).isDeleted && (b.row i).allowedSites ≠ .null)
    (hk : a.boundTo old + (js.countP fun i => (b.row i).allows old) = k) :
    Stopped old new k a (b.mapOn js fun b => if b.allows old then
      { b with allowedSites := b.allowedSites.rename (one (old, new)) } else b) := by
  have hrow : ∀ j ∈ a.ids, b.row j = (a.row j).mapLink (one (old, new)) := fun j hj => by
    rw [hb]; exact if_pos hj
  have hids : b.ids = a.ids := by rw [hb]; rfl
  have hmem : ∀ j ∈ js, j ∈ a.ids := fun j hj => hids ▸ (List.mem_filter.mp (hdone.subset hj)).1
  have hstep : ∀ j, (b.mapOn js fun b => if b.allows old then
      { b with allowedSites := b.allowedSites.rename (one (old, new)) } else b).row j =
      if j ∈ js then (b.row j).mapSites (one (old, new)) else b.row j := by
    intro j
    change (if j ∈ js then _ else _) = _
    split
    · exact Agent.patch_sites
    · rfl
  refine ⟨hids, fun j => ?_, fun h => ?_, fun h => ?_, fun j hj => ?_⟩
  · rw [hstep]
    split
    · next hj => exact .inr (.inr (by rw [hrow j (hmem j hj)]; rfl))
    · by_cases hj : j ∈ a.ids
      · exact .inr (.inl (hrow j hj))
      · rw [hb]
        exact .inl (if_neg hj)
  · rw [Agents.mapOn_eq_self (by omega), hb]
    refine congrArg (Agents.mk a.ids a.nodup) (funext fun j => ?_)
    split
    · next hj =>
      have hzero : a.boundTo old = 0 := by omega
      have hnot : (a.row j).isBoundTo old ≠ true := List.countP_eq_zero.mp hzero j hj
      rw [← Agent.patch_link, if_neg hnot]
    · rfl
  · by_cases hbound : 0 < a.boundTo old
    · obtain ⟨j, hj, hold⟩ := List.countP_pos_iff.mp hbound
      refine ⟨j, hj, .inl ?_⟩
      have hlink : (b.row j).isBoundTo new = true := by
        rw [hrow j hj]
        exact Agent.uses_mapLink hold
      rw [hstep]
      split
      · exact hlink
      · exact hlink
    · obtain ⟨j, hj, hold⟩ :=
        List.countP_pos_iff.mp (show 0 < js.countP fun i => (b.row i).allows old by omega)
      refine ⟨j, hmem j hj, .inr ?_⟩
      rw [hstep, if_pos hj]
      exact Agent.uses_mapSites hold
  · rw [hstep, if_neg fun hjs => hj (hmem j hjs), hb]
    exact if_neg hj

/-- A call renames every row, or is cut short by its outage. -/
def Called (old new : String) (db : Db) : Except String (ℕ × ℕ) → Db → Prop
  | .ok _, t => t.agents = db.agents.mapNames (one (old, new)) ∧ ¬ db.agents.CutShort old db.outage
  | .error _, t =>
    ∃ k, db.outage = some k ∧ db.agents.Reaches old k ∧ Stopped old new k db.agents t.agents

theorem ends_renameLinkBinding (hcoll : ∀ s, collates s s = true) (hold : old ≠ "")
    (hnew : new ≠ "") (hne : old ≠ new) :
    Ends (renameLinkBinding collates old new) db (Called old new db) := by
  obtain ⟨a, outage⟩ := db
  rw [renameLinkBinding, if_neg (by simp [hold, hnew, hne]), ends_bind, ends_select]
  split
  · next hout =>
    exact ⟨0, hout, .inl (Nat.zero_le _), rfl, fun _ => .inl rfl, fun _ => rfl,
      fun h => absurd h (by simp), fun _ _ => rfl⟩
  next hout =>
  obtain ⟨hlinks, hbound⟩ := renameLinkBinding_links a old new hcoll
  dsimp only
  rw [ends_bind]
  refine (ends_patchEach (a.nodup.filter _)).imp fun r t h => ?_
  cases r with
  | error e =>
    obtain ⟨k, done, hk, hlt, hdone, hagents, hcount⟩ := h
    have hlt : k < a.boundTo old := hbound ▸ hlt
    refine ⟨k, hk, .inl (Nat.le_of_lt hlt), ?_⟩
    rw [hagents]
    exact Stopped.links hdone hcount
  | ok n =>
  obtain ⟨rfl, hk⟩ := h
  dsimp only at hlinks hbound hk hout ⊢
  rw [hlinks, hbound, ends_bind, ends_select]
  rw [hbound] at hk
  split
  · next hout' =>
    obtain ⟨k, rfl, hzero⟩ := Option.map_eq_some_iff.mp hout'
    have hle := hk k rfl
    have hnone : a.boundTo old + ([] : List ℕ).countP
        (fun i => ((a.mapOn a.ids (Agent.mapLink (one (old, new)))).row i).allows old) = k := by
      simp
      omega
    have hstop := Stopped.sites rfl List.nil_prefix hnone
    exact ⟨k, rfl, .inl (show k ≤ a.boundTo old by omega), hstop⟩
  next hout' =>
  obtain ⟨hsites, hallow⟩ :=
    renameLinkBinding_sites (a.mapOn a.ids (Agent.mapLink (one (old, new)))) old new
  have hallow' : (a.mapOn a.ids (Agent.mapLink (one (old, new)))).allowing old =
      a.allowing old := by
    refine List.countP_congr fun j hj => ?_
    have hj : j ∈ a.ids := hj
    change Agent.allows old (if j ∈ a.ids then _ else _) = true ↔ _
    rw [if_pos hj]
    rfl
  dsimp only
  rw [ends_bind]
  refine (ends_patchEach (a.nodup.filter _)).imp fun r t h => ?_
  cases r with
  | error e =>
    obtain ⟨k, done, hk', hlt, hdone, hagents, hcount⟩ := h
    obtain ⟨k, rfl, rfl⟩ := Option.map_eq_some_iff.mp hk'
    have hle := hk k rfl
    have hlt : k - a.boundTo old < a.allowing old := hallow' ▸ hallow ▸ hlt
    refine ⟨k, rfl, .inr (show k < a.boundTo old + a.allowing old by omega), ?_⟩
    rw [hagents]
    have hle : a.boundTo old ≤ k := hle
    exact Stopped.sites rfl hdone (hcount ▸ Nat.add_sub_cancel' hle)
  | ok m =>
    obtain ⟨rfl, hk'⟩ := h
    have hk' : ∀ k, outage.map (· - a.boundTo old) = some k → a.allowing old ≤ k := fun k h =>
      hallow' ▸ hallow ▸ hk' k h
    change Called old new ⟨a, outage⟩ (.ok (n, m)) ⟨_, _⟩
    refine ⟨hsites.trans (congrArg (Agents.mk a.ids a.nodup) (funext fun j => ?_)), ?_⟩
    · change (if j ∈ a.ids then Agent.mapSites _ (if j ∈ a.ids then _ else _) else if j ∈ a.ids then
        _ else _) = _
      split
      · rfl
      · rfl
    · rintro ⟨k, rfl, hreach⟩
      have hle : a.boundTo old ≤ k := hk k rfl
      have hle' := hk' (k - a.boundTo old) rfl
      have hpos : k - a.boundTo old ≠ 0 := fun he => hout' (congrArg some he)
      have hreach : k ≤ a.boundTo old ∨ k < a.boundTo old + a.allowing old := hreach
      omega

end Calls

/-! The whole table. -/

section Table
variable {a b : Agents} {g h : String → String} {old new n : String} {k : ℕ} {o : Option ℕ}

theorem Agents.mapNames_congr (hgh : ∀ j ∈ a.ids, ∀ m, (a.row j).Uses m → g m = h m) :
    a.mapNames g = a.mapNames h := by
  refine congrArg (Agents.mk a.ids a.nodup) (funext fun j => ?_)
  split
  · next hj => exact Agent.mapNames_congr (hgh j hj)
  · rfl

theorem Agents.mapNames_mapNames : (a.mapNames g).mapNames h = a.mapNames (h ∘ g) := by
  refine congrArg (Agents.mk a.ids a.nodup) (funext fun j => ?_)
  by_cases hj : j ∈ a.ids
  · simp [Agents.mapNames, Agents.mapOn, hj, Agent.mapNames_mapNames]
  · simp [Agents.mapNames, Agents.mapOn, hj]

theorem Agents.mapNames_eq_self (hg : ∀ j ∈ a.ids, ∀ m, (a.row j).Uses m → g m = m) :
    a.mapNames g = a := by
  refine congrArg (Agents.mk a.ids a.nodup) (funext fun j => ?_)
  split
  · next hj => exact Agent.mapNames_eq_self (hg j hj)
  · rfl

theorem Agents.mapNames_nil : a.mapNames (inTurn []) = a := mapNames_eq_self fun _ _ _ _ => rfl

theorem Agents.row_mapNames {j : ℕ} (hj : j ∈ a.ids) :
    (a.mapNames g).row j = (a.row j).mapNames g := if_pos hj

theorem Agent.Uses.mapNames {c : Agent} (h : c.Uses n) : (c.mapNames g).Uses (g n) := by
  rcases h with h | h
  · have hlink : c.wgLinkName = some n := by simpa [Agent.isBoundTo] using h
    exact .inl (by simp [Agent.isBoundTo, Agent.mapNames, Agent.mapSites, Agent.mapLink, hlink])
  · obtain ⟨link, sites, deleted⟩ := c
    cases deleted with
    | true => simp [Agent.allows] at h
    | false =>
      have hn : n ∈ sites.names := by simpa [Agent.allows] using h
      have hmem : g n ∈ sites.names.map g := List.mem_map_of_mem hn
      exact .inr
        (by
          simpa [Agent.allows, Agent.mapNames, Agent.mapSites, Agent.mapLink,
            AllowedSites.names_rename] using hmem)

/-- Calls for two names meet the same outages when just as many rows have to do with them. -/
theorem Agents.cutShort_congr
    (hbound : ∀ j ∈ a.ids, (b.row j).isBoundTo n = (a.row j).isBoundTo old)
    (hallow : ∀ j ∈ a.ids, (b.row j).allows n = (a.row j).allows old) (hids : b.ids = a.ids) :
    b.CutShort n o ↔ a.CutShort old o := by
  have hb : b.boundTo n = a.boundTo old := by
    rw [boundTo, boundTo, hids]
    exact List.countP_congr fun j hj => by rw [hbound j hj]
  have hs : b.allowing n = a.allowing old := by
    rw [allowing, allowing, hids]
    exact List.countP_congr fun j hj => by rw [hallow j hj]
  unfold CutShort Reaches
  rw [hb, hs]

theorem Agents.cutShort_mapNames (hg : ∀ j ∈ a.ids, ∀ m, (a.row j).Uses m → (g m = n ↔ m = old)) :
    (a.mapNames g).CutShort n o ↔ a.CutShort old o := by
  refine cutShort_congr (fun j hj => ?_) (fun j hj => ?_) rfl
  · rw [row_mapNames hj, Agent.isBoundTo_mapNames (hg j hj)]
  · rw [row_mapNames hj, Agent.allows_mapNames (hg j hj)]

theorem one_eq_iff {m : String} (hold : n ≠ old) (hnew : n ≠ new) :
    one (old, new) m = n ↔ m = n := by
  unfold one
  split
  · next hm =>
    obtain rfl : m = old := hm
    exact iff_of_false hnew.symm hold.symm
  · rfl

theorem Stopped.cutShort (hs : Stopped old new k a b) (hold : n ≠ old) (hnew : n ≠ new) :
    b.CutShort n o ↔ a.CutShort n o := by
  have hone := fun c : Agent => fun m (_ : c.Uses m) => one_eq_iff (m := m) hold hnew
  refine Agents.cutShort_congr (fun j _ => ?_) (fun j _ => ?_) hs.ids
  · rcases hs.partly j with h | h | h
    · rw [h]
    · rw [h]
      exact Agent.isBoundTo_mapNames (hone _)
    · rw [h]
      exact Agent.isBoundTo_mapNames (hone _)
  · rcases hs.partly j with h | h | h
    · rw [h]
    · rw [h]
      rfl
    · rw [h]
      exact Agent.allows_mapNames (hone _)

/-- A call that is made again finishes what the first has begun. -/
theorem Stopped.again (hs : Stopped old new k a b) :
    b.mapNames (one (old, new)) = a.mapNames (one (old, new)) := by
  have hidem : ∀ m, one (old, new) (one (old, new) m) = one (old, new) m := by
    intro m
    unfold one
    by_cases hm : m = old
    · simp [hm]
    · simp [hm]
  have hrow : ∀ j, (b.row j).mapNames (one (old, new)) = (a.row j).mapNames (one (old, new)) := by
    intro j
    rcases hs.partly j with h | h | h
    · rw [h]
    · rw [h]
      generalize a.row j = c
      obtain ⟨link, sites, deleted⟩ := c
      cases deleted <;>
        simp [Agent.mapNames, Agent.mapSites, Agent.mapLink, Function.comp_def, hidem]
    · rw [h, Agent.mapNames_mapNames]
      exact Agent.mapNames_congr fun m _ => hidem m
  refine Agents.ext hs.ids (funext fun j => ?_)
  change (if j ∈ b.ids then _ else _) = if j ∈ a.ids then _ else _
  rw [hs.ids]
  split
  · exact hrow j
  · next hj => exact hs.outer j hj

end Table

/-! The runs of a cascade. -/

section Runs
variable {collates : String → String → Bool} {s : Cascade} {a : Agents} {old new : String}
  {ps : List (String × String)}

/-- A call of a cascade renames every row, or is cut short by its outage. -/
theorem run_cases (hcoll : ∀ s, collates s s = true) (hold : old ≠ "") (hnew : new ≠ "")
    (hne : old ≠ new) :
    (¬ s.agents.CutShort old s.outages.head?.join ∧
      run collates s old new = (none, ⟨s.agents.mapNames (one (old, new)), s.outages.tail⟩)) ∨
    ∃ e k b, s.outages.head?.join = some k ∧ s.agents.Reaches old k ∧ Stopped old new k s.agents b ∧
      run collates s old new = (some e, ⟨b, s.outages.tail⟩) := by
  have hends : Ends (renameLinkBinding collates old new) ⟨s.agents, s.outages.head?.join⟩
      (Called old new ⟨s.agents, s.outages.head?.join⟩) :=
        ends_renameLinkBinding hcoll hold hnew hne
  unfold Ends at hends
  unfold run
  cases hrun : (renameLinkBinding collates old new).run.run ⟨s.agents, s.outages.head?.join⟩ with
  | mk r db =>
    rw [hrun] at hends
    cases r with
    | ok n =>
      obtain ⟨hagents, hcut⟩ := hends
      exact .inl ⟨hcut, congrArg (fun b => (none, Cascade.mk b s.outages.tail)) hagents⟩
    | error e =>
      obtain ⟨k, hk, hreach, hstop⟩ := hends
      exact .inr ⟨_, k, db.agents, hk, hreach, hstop, rfl⟩

/-- A step leads from one name to another, and both are names. -/
def Proper (p : String × String) : Prop := p.1 ≠ "" ∧ p.2 ≠ "" ∧ p.1 ≠ p.2

theorem zip_head {α β : Type*} {x : α} {xs : List α} {os : List (Option β)}
    {P : α × Option β → Prop}
    (hnone : P (x, none)) :
    (∀ q ∈ (x :: xs).zip os, P q) ↔ P (x, os.head?.join) ∧ ∀ q ∈ xs.zip os.tail, P q := by
  cases os with
  | nil => simp [hnone]
  | cons o os => simp

theorem not_cutShort_none {n : String} : ¬ a.CutShort n none := by simp [Agents.CutShort]

/-- The steps of a run go through when no call is cut short. -/
theorem runAll_errors (hcoll : ∀ s, collates s s = true) (hproper : ∀ p ∈ ps, Proper p)
    (hapart : ps.Pairwise fun p q => q.1 ≠ p.1 ∧ q.1 ≠ p.2) :
    ((runAll collates ps s).1 = [] ↔ ∀ q ∈ ps.zip s.outages, ¬ s.agents.CutShort q.1.1 q.2) ∧
      ((runAll collates ps s).1 = [] →
        (runAll collates ps s).2.agents = s.agents.mapNames (inTurn ps)) := by
  induction ps generalizing s with
  | nil =>
    refine ⟨by simp [runAll], fun _ => ?_⟩
    exact Agents.mapNames_nil.symm
  | cons p ps ih =>
    obtain ⟨hp, hnew, hne⟩ := hproper p List.mem_cons_self
    obtain ⟨hapart, hrest⟩ := List.pairwise_cons.mp hapart
    rw [zip_head not_cutShort_none, runAll]
    rcases run_cases (s := s) hcoll hp hnew hne with ⟨hcut, hrun⟩ | ⟨e, k, b, hk, hreach, -, hrun⟩
    · obtain ⟨hiff, hagents⟩ := ih (s := ⟨s.agents.mapNames (one p), s.outages.tail⟩)
        (fun q hq => hproper q (List.mem_cons_of_mem _ hq)) hrest
      simp only [hrun, Option.toList_none, List.nil_append]
      refine ⟨hiff.trans ?_, fun h => (hagents h).trans ?_⟩
      · rw [and_iff_right hcut]
        refine forall₂_congr fun q hq => not_congr ?_
        obtain ⟨hold, hnew⟩ := hapart q.1 (List.of_mem_zip hq).1
        exact Agents.cutShort_mapNames fun _ _ m _ => one_eq_iff hold hnew
      · exact Agents.mapNames_mapNames
    · simp only [hrun]
      have hcut : s.agents.CutShort p.1 s.outages.head?.join := ⟨k, hk, hreach⟩
      exact ⟨by simp [hcut], by simp⟩

theorem pairwise_steps {β : Type*} {xs : List β} {f g : β → String} (hf : (xs.map f).Nodup)
    (hg : ∀ p ∈ xs, ∀ q ∈ xs, f q ≠ g p) :
    (xs.map fun r => (f r, g r)).Pairwise fun p q => q.1 ≠ p.1 ∧ q.1 ≠ p.2 := by
  refine List.pairwise_map.mpr ((List.Pairwise.and_mem.mp (List.pairwise_map.mp hf)).imp ?_)
  rintro p q ⟨hp, hq, hne⟩
  exact ⟨Ne.symm hne, hg p hp q hq⟩

variable {rs : List (Rename × ℕ)} {tmp : Rename × ℕ → String}

theorem moveOn_agents (hcoll : ∀ s, collates s s = true)
    (hproper : ∀ r ∈ rs, Proper (tmp r, r.1.newName)) (h : (moveOn collates tmp rs s).1 = []) :
    (moveOn collates tmp rs s).2.agents = s.agents.mapNames
    (inTurn (steps tmp (·.1.newName) rs)) := by
  induction rs generalizing s with
  | nil => exact Agents.mapNames_nil.symm
  | cons r rs ih =>
    obtain ⟨hp, hnew, hne⟩ := hproper r List.mem_cons_self
    have hgo : ∀ {t : Cascade}, (moveOn collates tmp rs t).1 = [] →
        t.agents = s.agents.mapNames (one (tmp r, r.1.newName)) →
          (moveOn collates tmp rs t).2.agents =
          s.agents.mapNames (inTurn (steps tmp (·.1.newName) (r :: rs))) := by
      intro t ht hagents
      rw [ih (fun q hq => hproper q (List.mem_cons_of_mem _ hq)) ht, hagents,
        Agents.mapNames_mapNames]
      rfl
    unfold moveOn at h ⊢
    rcases run_cases (s := s) hcoll hp hnew hne with ⟨-, hrun⟩ | ⟨e, k, b, -, -, hstop, hrun⟩
    · simp only [hrun, Option.toList_none, List.nil_append] at h ⊢
      exact hgo h rfl
    · rcases run_cases (s := ⟨b, s.outages.tail⟩) hcoll hp hnew hne with ⟨-, hrun'⟩
        | ⟨e', k', b', -, -, -, hrun'⟩
      · simp only [hrun, hrun', Option.toList_none, List.nil_append] at h ⊢
        exact hgo h hstop.again
      · simp [hrun, hrun'] at h

/-- `r` is the first of the renames whose move to its temporary name is cut short, after `k`
patches. -/
structure FirstCut (a : Agents) (outages : List (Option ℕ)) (rs moved : List (Rename × ℕ))
    (r : Rename × ℕ) (k : ℕ) : Prop where
  split : ∃ rest, rs = moved ++ r :: rest
  before : ∀ q ∈ moved.zip outages, ¬ a.CutShort q.1.1.oldName q.2
  outage : (outages.drop moved.length).head?.join = some k
  reaches : a.Reaches r.1.oldName k

theorem uncut_or_firstCut (a : Agents) (outages : List (Option ℕ)) (rs : List (Rename × ℕ)) :
    (∀ q ∈ rs.zip outages, ¬ a.CutShort q.1.1.oldName q.2) ∨ ∃ moved r k,
    FirstCut a outages rs moved r k := by
  induction rs generalizing outages with
  | nil => exact .inl nofun
  | cons r rs ih =>
    rw [zip_head not_cutShort_none]
    by_cases hcut : a.CutShort r.1.oldName outages.head?.join
    · obtain ⟨k, hk, hreach⟩ := hcut
      exact .inr ⟨[], r, k, ⟨rs, rfl⟩, nofun, hk, hreach⟩
    · refine (ih outages.tail).imp (fun h => ⟨hcut, h⟩) ?_
      rintro ⟨moved, q, k, ⟨rest, rfl⟩, hbefore, hk, hreach⟩
      refine ⟨r :: moved, q, k, ⟨rest, rfl⟩, ?_, ?_, hreach⟩
      · exact (zip_head not_cutShort_none).mpr ⟨hcut, hbefore⟩
      · rwa [List.length_cons, ← List.drop_tail]

/-- The old names are apart from each other and from the temporary names. -/
structure Apart (tmp : Rename × ℕ → String) (rs : List (Rename × ℕ)) : Prop where
  nodup : (rs.map (·.1.oldName)).Nodup
  nodup_tmp : (rs.map tmp).Nodup
  named : ∀ r ∈ rs, tmp r ≠ ""
  old_ne : ∀ r ∈ rs, ∀ q ∈ rs, r.1.oldName ≠ tmp q
  new_ne : ∀ r ∈ rs, ∀ q ∈ rs, r.1.newName ≠ tmp q

theorem Apart.tail {r : Rename × ℕ} (h : Apart tmp (r :: rs)) : Apart tmp rs where
  nodup := (List.nodup_cons.mp h.nodup).2
  nodup_tmp := (List.nodup_cons.mp h.nodup_tmp).2
  named q hq := h.named q (List.mem_cons_of_mem _ hq)
  old_ne q hq p hp := h.old_ne q (List.mem_cons_of_mem _ hq) p (List.mem_cons_of_mem _ hp)
  new_ne q hq p hp := h.new_ne q (List.mem_cons_of_mem _ hq) p (List.mem_cons_of_mem _ hp)

theorem Apart.ne_head {r q : Rename × ℕ} (h : Apart tmp (r :: rs)) (hq : q ∈ rs) :
    q.1.oldName ≠ r.1.oldName := by
  intro he
  exact (List.nodup_cons.mp h.nodup).1 (List.mem_map.mpr ⟨q, hq, he⟩)

theorem Apart.proper {r : Rename × ℕ} (h : Apart tmp rs) (hr : r ∈ rs) :
    Proper (r.1.oldName, tmp r) :=
  ⟨r.1.named.1, h.named r hr, h.old_ne r hr r hr⟩

/-- The first step is no matter to the calls for the names that follow. -/
theorem Apart.cutShort {r q : Rename × ℕ} {o : Option ℕ} (h : Apart tmp (r :: rs)) (hq : q ∈ rs) :
    (a.mapNames (one (r.1.oldName, tmp r))).CutShort q.1.oldName o ↔ a.CutShort q.1.oldName o := by
  have htmp := h.old_ne q (List.mem_cons_of_mem _ hq) r List.mem_cons_self
  exact Agents.cutShort_mapNames fun _ _ m _ => one_eq_iff (h.ne_head hq) htmp

theorem moveAside_of_uncut (hcoll : ∀ s, collates s s = true) (hapart : Apart tmp rs)
    (h : ∀ q ∈ rs.zip s.outages, ¬ s.agents.CutShort q.1.1.oldName q.2) :
    ∃ os,
    moveAside collates tmp rs s =
      (rs, none, ⟨s.agents.mapNames (inTurn (steps (·.1.oldName) tmp rs)), os⟩) := by
  induction rs generalizing s with
  | nil => exact ⟨s.outages, by rw [steps, List.map_nil, Agents.mapNames_nil]; rfl⟩
  | cons r rs ih =>
    obtain ⟨hcut, hrest⟩ := (zip_head not_cutShort_none).mp h
    obtain ⟨hp, hnew, hne⟩ := hapart.proper List.mem_cons_self
    rcases run_cases (s := s) hcoll hp hnew hne with ⟨-, hrun⟩ | ⟨e, k, b, hk, hreach, -, -⟩
    · obtain ⟨os, hmove⟩ := ih (s := ⟨s.agents.mapNames (one (r.1.oldName, tmp r)), s.outages.tail⟩)
        hapart.tail
        fun q hq hcut => hrest q hq ((hapart.cutShort (List.of_mem_zip hq).1).mp hcut)
      refine ⟨os, ?_⟩
      simp only [moveAside, hrun, hmove, Agents.mapNames_mapNames]
      rfl
    · exact absurd ⟨k, hk, hreach⟩ hcut

theorem moveAside_of_firstCut (hcoll : ∀ s, collates s s = true) (hapart : Apart tmp rs)
    {moved : List (Rename × ℕ)} {r : Rename × ℕ} {k : ℕ}
    (h : FirstCut s.agents s.outages rs moved r k) :
    ∃ e b, moveAside collates tmp rs s = (moved, some e, ⟨b, s.outages.drop (moved.length + 1)⟩) ∧
      Stopped r.1.oldName (tmp r) k (s.agents.mapNames (inTurn (steps (·.1.oldName) tmp moved)))
        b := by
  induction rs generalizing s moved with
  | nil =>
    obtain ⟨rest, hrest⟩ := h.split
    simp at hrest
  | cons q rs ih =>
    obtain ⟨hp, hnew, hne⟩ := hapart.proper List.mem_cons_self
    obtain ⟨⟨rest, hsplit⟩, hbefore, hk, hreach⟩ := h
    cases moved with
    | nil =>
      obtain ⟨rfl, rfl⟩ := List.cons.inj hsplit
      rcases run_cases (s := s) hcoll hp hnew hne with ⟨hcut, -⟩ | ⟨e, k', b, hk', -, hstop, hrun⟩
      · exact absurd ⟨k, hk, hreach⟩ hcut
      · obtain rfl : k' = k := Option.some.inj (hk'.symm.trans hk)
        refine ⟨e, b, ?_, ?_⟩
        · simp only [moveAside, hrun, List.length_nil, Nat.zero_add, List.drop_one]
        · rwa [steps, List.map_nil, Agents.mapNames_nil]
    | cons m moved =>
      obtain ⟨rfl, hrs⟩ := List.cons.inj hsplit
      obtain ⟨hcut, hrest⟩ := (zip_head not_cutShort_none).mp hbefore
      have hmem : ∀ p ∈ moved, p ∈ rs := fun p hp => hrs ▸ List.mem_append_left _ hp
      have hr : r ∈ rs := hrs ▸ List.mem_append_right _ List.mem_cons_self
      rcases run_cases (s := s) hcoll hp hnew hne with ⟨-, hrun⟩ | ⟨e, k', b, hk', hreach', -, -⟩
      · have hreach' : (s.agents.mapNames (one (q.1.oldName, tmp q))).Reaches r.1.oldName k := by
          have hcut' : (s.agents.mapNames (one (q.1.oldName, tmp q))).CutShort r.1.oldName
              (some k) :=
            (hapart.cutShort hr).mpr ⟨k, rfl, hreach⟩
          obtain ⟨k', hk', hreach'⟩ := hcut'
          exact Option.some.inj hk' ▸ hreach'
        have hfirst : ∃ rest, rs = moved ++ r :: rest := ⟨rest, hrs⟩
        obtain ⟨e, b, hmove, hstop⟩ :=
          ih (s := ⟨s.agents.mapNames (one (q.1.oldName, tmp q)), s.outages.tail⟩) hapart.tail
          ⟨hfirst, fun p hp hcut =>
            hrest p hp ((hapart.cutShort (hmem _ (List.of_mem_zip hp).1)).mp hcut),
            by rwa [List.drop_tail], hreach'⟩
        refine ⟨e, b, ?_, ?_⟩
        · simp only [moveAside, hrun, hmove, List.length_cons, List.drop_tail]
        · rw [Agents.mapNames_mapNames] at hstop
          exact hstop
      · exact absurd ⟨k', hk', hreach'⟩ hcut

/-- The temporary names of the move so far, back to the old ones. -/
theorem moved_back (hapart : Apart tmp rs) {moved : List (Rename × ℕ)} (hmoved : moved <+: rs)
    (hunused : ∀ j ∈ a.ids, ∀ r ∈ rs, ¬ (a.row j).Uses (tmp r)) :
    (a.mapNames (inTurn (steps (·.1.oldName) tmp moved))).mapNames
    (inTurn (steps tmp (·.1.oldName) moved.reverse)) = a := by
  have hnodup : (moved.reverse.map tmp).Nodup := by
    rw [List.map_reverse, List.nodup_reverse]
    exact hapart.nodup_tmp.sublist (hmoved.sublist.map tmp)
  rw [Agents.mapNames_mapNames]
  refine Agents.mapNames_eq_self fun j hj m hm => ?_
  rw [Function.comp_apply, inTurn_eq_atOnce, inTurn_eq_atOnce]
  · refine atOnce_back (fun b => List.mem_reverse) hnodup fun b hb he => ?_
    exact hunused j hj b (hmoved.subset hb) (he ▸ hm)
  · refine forall_steps.mpr fun p hp => forall_steps.mpr fun q hq => ?_
    exact (hapart.old_ne q (hmoved.subset hq) p (hmoved.subset hp)).symm
  · refine forall_steps.mpr fun p hp => forall_steps.mpr fun q hq => ?_
    exact hapart.old_ne p (hmoved.subset (List.mem_reverse.mp hp)) q
      (hmoved.subset (List.mem_reverse.mp hq))

/-- A call that moves a rename back meets its outage where a call for the old name would have. -/
theorem cutShort_moved (hapart : Apart tmp rs) {moved : List (Rename × ℕ)} (hmoved : moved <+: rs)
    (hunused : ∀ j ∈ a.ids, ∀ r ∈ rs, ¬ (a.row j).Uses (tmp r)) {p : Rename × ℕ} (hp : p ∈ moved)
    {o : Option ℕ} :
    (a.mapNames (inTurn (steps (·.1.oldName) tmp moved))).CutShort (tmp p) o ↔
    a.CutShort p.1.oldName o := by
  have hnodup : (moved.map (·.1.oldName)).Nodup := hapart.nodup.sublist (hmoved.sublist.map _)
  have hinj : ∀ q ∈ moved, tmp q = tmp p → q = p := fun q hq he =>
    List.inj_on_of_nodup_map hapart.nodup_tmp (hmoved.subset hq) (hmoved.subset hp) he
  refine Agents.cutShort_mapNames fun j hj m hm => ?_
  rw [inTurn_eq_atOnce (forall_steps.mpr fun p hp => forall_steps.mpr fun q hq =>
    (hapart.old_ne q (hmoved.subset hq) p (hmoved.subset hp)).symm)]
  constructor
  · intro he
    rcases exists_of_atOnce (fun r : Rename × ℕ => r.1.oldName) tmp moved m with
      ⟨q, hq, hold, hq'⟩ | ⟨-, hself⟩
    · rw [hold, hinj q hq (hq'.symm.trans he)]
    · rw [hself] at he
      exact absurd (he ▸ hm) (hunused j hj p (hmoved.subset hp))
  · rintro rfl
    have hsrc : (moved.map fun r => r.1.oldName).Nodup := hnodup
    exact atOnce_src hsrc hp

end Runs

/-! The result of a cascade. -/

/-- No agent is bound by a temporary name, and no link is called or will be called so. -/
structure FreshTmp (stamp : ℕ) (renames : List Rename) (a : Agents) : Prop where
  unused : ∀ j ∈ a.ids, ∀ i, ¬ (a.row j).Uses (tmpName stamp i)
  old_ne : ∀ r ∈ renames, ∀ i, r.oldName ≠ tmpName stamp i
  new_ne : ∀ r ∈ renames, ∀ i, r.newName ≠ tmpName stamp i

/-- Every rename at once. -/
def simultaneous (renames : List Rename) : String → String :=
  atOnce (steps Rename.oldName Rename.newName renames)

/-- All or nothing: without an error every agent follows all renames at once, and after a roll-back
that itself met no error every agent is bound as before. -/
structure AllOrNothing (renames : List Rename) (a : Agents) (result : Result) (b : Agents) :
    Prop where
  all : result.errors = [] → b = a.mapNames (simultaneous renames)
  nothing : result.rolledBack = true → result.errors.length = 1 → b = a

/-- The call that ends the first phase stops before its first patch, or some call of the roll-back
is cut short too. -/
def StopsUntouched (renames : List Rename) (s : Cascade) : Prop :=
  needsTemp renames = true → ∀ moved r k, FirstCut s.agents s.outages renames.zipIdx moved r k →
    k = 0 ∨ ∃ q ∈ moved.reverse.zip (s.outages.drop (moved.length + 1)),
      s.agents.CutShort q.1.1.oldName q.2

section Result
variable {collates : String → String → Bool} {stamp : ℕ} {renames : List Rename} {s : Cascade}

theorem tmpName_injective : Function.Injective (tmpName stamp) := by
  intro i j h
  have hlist := congrArg String.toList h
  simp only [tmpName, String.toList_append, String.toList_ofList, List.append_assoc] at hlist
  have hdigits :=
    List.append_cancel_right
      (List.append_cancel_left (List.append_cancel_left (List.append_cancel_left hlist)))
  have := congrArg (Nat.ofDigitChars 10 · 0) hdigits
  simpa [Nat.ofDigitChars_ten_toDigits] using this

theorem tmpName_ne_empty (i : ℕ) : tmpName stamp i ≠ "" := by
  intro h
  have hlist := congrArg String.toList h
  simp [tmpName] at hlist

theorem apart (hold : (renames.map Rename.oldName).Nodup)
    (hfresh : FreshTmp stamp renames s.agents) :
    Apart (fun r => tmpName stamp r.2) renames.zipIdx where
  nodup := by
    have hfst : renames.zipIdx.map (·.1.oldName) = renames.map Rename.oldName := by
      conv_rhs => rw [← List.zipIdx_map_fst 0 renames, List.map_map]
      rfl
    exact hfst ▸ hold
  nodup_tmp := by
    have hsnd : renames.zipIdx.map (fun r => tmpName stamp r.2) = (List.range' 0 renames.length).map
        (tmpName stamp) := by
      rw [← List.zipIdx_map_snd 0 renames, List.map_map]
      rfl
    exact hsnd ▸ (List.nodup_range' (h := Nat.zero_lt_one)).map tmpName_injective
  named r _ := tmpName_ne_empty r.2
  old_ne r hr q _ := hfresh.old_ne r.1 (List.fst_mem_of_mem_zipIdx hr) q.2
  new_ne r hr q _ := hfresh.new_ne r.1 (List.fst_mem_of_mem_zipIdx hr) q.2

theorem steps_zipIdx :
    steps (fun r : Rename × ℕ => r.1.oldName) (fun r => r.1.newName) renames.zipIdx =
    steps Rename.oldName Rename.newName renames := by
  conv_rhs => rw [← List.zipIdx_map_fst 0 renames]
  rw [steps, steps, List.map_map]
  rfl

/-- Both phases together are all renames at once. -/
theorem mapNames_both (hold : (renames.map Rename.oldName).Nodup)
    (hfresh : FreshTmp stamp renames s.agents) :
    let tmp (r : Rename × ℕ) := tmpName stamp r.2
    (s.agents.mapNames (inTurn (steps (·.1.oldName) tmp renames.zipIdx))).mapNames
        (inTurn (steps tmp (·.1.newName) renames.zipIdx)) =
          s.agents.mapNames (simultaneous renames) := by
  intro tmp
  have hapart := apart hold hfresh
  rw [Agents.mapNames_mapNames]
  refine Agents.mapNames_congr fun j hj m hm => ?_
  rw [Function.comp_apply, inTurn_eq_atOnce, inTurn_eq_atOnce, simultaneous, ← steps_zipIdx]
  · refine atOnce_via hapart.nodup hapart.nodup_tmp fun b _ he => hfresh.unused j hj b.2 ?_
    obtain rfl : m = tmpName stamp b.2 := he
    exact hm
  · exact forall_steps.mpr fun p hp => forall_steps.mpr fun q hq => (hapart.old_ne q hq p hp).symm
  · exact forall_steps.mpr fun p hp => forall_steps.mpr fun q hq => hapart.new_ne p hp q hq

/-- Without a chain the renames are made one after the other. -/
theorem cascade_direct (hcoll : ∀ s, collates s s = true)
    (hold : (renames.map Rename.oldName).Nodup)
    (htemp : needsTemp renames = false) :
    let ps := renames.map fun r => (r.oldName, r.newName)
    (runAll collates ps s).1 = [] →
      (runAll collates ps s).2.agents = s.agents.mapNames (simultaneous renames) := by
  have hnever : ∀ r ∈ renames, ∀ q ∈ renames, r.newName ≠ q.oldName := by
    intro r hr q hq he
    have htrue : needsTemp renames = true :=
      List.any_eq_true.mpr ⟨r, hr, decide_eq_true (he ▸ List.mem_map_of_mem hq)⟩
    rw [htrue] at htemp
    cases htemp
  intro ps herrors
  have hproper : ∀ p ∈ ps, Proper p := by
    intro p hp
    obtain ⟨r, hr, rfl⟩ := List.mem_map.mp hp
    exact ⟨r.named.1, r.named.2, (hnever r hr r hr).symm⟩
  have hpair := pairwise_steps hold fun r hr q hq => (hnever r hr q hq).symm
  rw [(runAll_errors hcoll hproper hpair).2 herrors, simultaneous]
  refine congrArg s.agents.mapNames (funext fun m => inTurn_eq_atOnce ?_)
  exact forall_steps.mpr fun p hp => forall_steps.mpr fun q hq => hnever p hp q hq

/-- A failure in the first phase: what the roll-back leaves, and when it meets no failure of its
own. -/
theorem cascade_rolledBack (hcoll : ∀ s, collates s s = true)
    (hold : (renames.map Rename.oldName).Nodup)
    (hfresh : FreshTmp stamp renames s.agents) {moved : List (Rename × ℕ)} {r : Rename × ℕ} {k : ℕ}
    (hcut : FirstCut s.agents s.outages renames.zipIdx moved r k) :
    let tmp (r : Rename × ℕ) := tmpName stamp r.2
    ∃ e t, moveAside collates tmp renames.zipIdx s = (moved, some e, t) ∧
      let back := runAll collates (moved.reverse.map fun r => (tmp r, r.1.oldName)) t
      (back.1 = [] ↔ ∀ q ∈ moved.reverse.zip (s.outages.drop (moved.length + 1)),
        ¬ s.agents.CutShort q.1.1.oldName q.2) ∧
      (back.1 = [] → (back.2.agents = s.agents ↔ k = 0)) := by
  intro tmp
  have hapart : Apart tmp renames.zipIdx := apart hold hfresh
  have hunused : ∀ j ∈ s.agents.ids, ∀ r ∈ renames.zipIdx, ¬ (s.agents.row j).Uses (tmp r) :=
    fun j hj r _ => hfresh.unused j hj r.2
  obtain ⟨rest, hsplit⟩ := hcut.split
  have hmoved : moved <+: renames.zipIdx := hsplit ▸ List.prefix_append moved (r :: rest)
  have hr : r ∈ renames.zipIdx := hsplit ▸ List.mem_append_right _ List.mem_cons_self
  have htmp_ne : ∀ p ∈ moved, tmp p ≠ tmp r := by
    have hnodup := hapart.nodup_tmp
    rw [hsplit, List.map_append, List.map_cons] at hnodup
    intro p hp he
    exact List.disjoint_of_nodup_append hnodup (List.mem_map_of_mem hp) (he ▸ List.mem_cons_self)
  obtain ⟨e, b, hmove, hstop⟩ := moveAside_of_firstCut hcoll hapart hcut
  have hproper : ∀ p ∈ moved.reverse.map (fun r => (tmp r, r.1.oldName)), Proper p := by
    intro p hp
    obtain ⟨q, hq, rfl⟩ := List.mem_map.mp hp
    have hq := hmoved.subset (List.mem_reverse.mp hq)
    exact ⟨hapart.named q hq, q.1.named.1, (hapart.old_ne q hq q hq).symm⟩
  have hnodup : (moved.reverse.map tmp).Nodup := by
    rw [List.map_reverse, List.nodup_reverse]
    exact hapart.nodup_tmp.sublist (hmoved.sublist.map tmp)
  have hpair := pairwise_steps (g := fun r : Rename × ℕ => r.1.oldName) hnodup fun p hp q hq =>
    (hapart.old_ne p (hmoved.subset (List.mem_reverse.mp hp)) q
      (hmoved.subset (List.mem_reverse.mp hq))).symm
  obtain ⟨herrors, hagents⟩ :=
    runAll_errors (s := ⟨b, s.outages.drop (moved.length + 1)⟩) hcoll hproper hpair
  refine ⟨e, _, hmove, herrors.trans ?_, fun hnone => ?_⟩
  · rw [List.zip_map_left, List.forall_mem_map]
    refine forall₂_congr fun q hq => not_congr ?_
    have hq := List.mem_reverse.mp (List.of_mem_zip hq).1
    exact (hstop.cutShort (hapart.old_ne r hr q.1 (hmoved.subset hq)).symm (htmp_ne q.1 hq)).trans
      (cutShort_moved hapart hmoved hunused hq)
  · have hagents := hagents hnone
    refine ⟨fun he => Nat.eq_zero_of_not_pos fun hpos => ?_, fun hzero => ?_⟩
    · -- the row that was patched is still on the temporary name
      obtain ⟨j, hj, huses⟩ := hstop.touched hpos
      have hj : j ∈ s.agents.ids := hj
      have hstay : inTurn (moved.reverse.map fun r => (tmp r, r.1.oldName)) (tmp r) = tmp r := by
        refine inTurn_of_notMem fun p hp => ?_
        obtain ⟨q, hq, rfl⟩ := List.mem_map.mp hp
        exact (htmp_ne q (List.mem_reverse.mp hq)).symm
      have hrow := huses.mapNames (g := inTurn (moved.reverse.map fun r => (tmp r, r.1.oldName)))
      rw [hstay, ← Agents.row_mapNames (hstop.ids ▸ hj), ← hagents, he] at hrow
      exact hunused j hj r hr hrow
    · rw [hagents, hstop.untouched hzero]
      exact moved_back hapart hmoved hunused

/-- A cascade is all or nothing exactly when a failure in the first phase strikes before a row is
patched. -/
theorem cascadeLinkRenames_iff (hcoll : ∀ s, collates s s = true)
    (hold : (renames.map Rename.oldName).Nodup)
    (hfresh : FreshTmp stamp renames s.agents) :
    AllOrNothing renames s.agents (cascadeLinkRenames collates stamp renames s).1
      (cascadeLinkRenames collates stamp renames s).2.agents ↔ StopsUntouched renames s := by
  rw [cascadeLinkRenames]
  by_cases hnil : renames = []
  · subst hnil
    exact iff_of_true ⟨fun _ => Agents.mapNames_nil.symm, nofun⟩ nofun
  rw [if_neg hnil]
  cases htemp : needsTemp renames with
  | false =>
    refine iff_of_true ⟨cascade_direct hcoll hold htemp, nofun⟩ fun h => ?_
    rw [htemp] at h
    cases h
  | true =>
  rcases uncut_or_firstCut s.agents s.outages renames.zipIdx with huncut | ⟨moved, r, k, hcut⟩
  · obtain ⟨os, hmove⟩ := moveAside_of_uncut hcoll (apart hold hfresh) huncut
    refine iff_of_true ?_ fun _ moved r k hcut => ?_
    · simp only [hmove]
      refine ⟨fun herrors => ?_, nofun⟩
      rw [← mapNames_both hold hfresh]
      exact moveOn_agents hcoll (fun r hr => ⟨tmpName_ne_empty r.2, r.1.named.2,
        (hfresh.new_ne r.1 (List.fst_mem_of_mem_zipIdx hr) r.2).symm⟩) herrors
    · obtain ⟨e, t, hmove', -⟩ := cascade_rolledBack hcoll hold hfresh hcut
      rw [hmove] at hmove'
      cases hmove'
  · obtain ⟨e, t, hmove, hback, hagents⟩ := cascade_rolledBack hcoll hold hfresh hcut
    simp only [hmove]
    constructor
    · -- a failing call is the first of one first phase only
      rintro ⟨-, hnothing⟩ - moved' r' k' hcut'
      obtain ⟨e', t', hmove', -⟩ := cascade_rolledBack hcoll hold hfresh hcut'
      rw [hmove] at hmove'
      obtain rfl : moved = moved' := congrArg Prod.fst hmove'
      obtain rfl : k = k' := Option.some.inj (hcut.outage.symm.trans hcut'.outage)
      by_contra hno
      obtain ⟨hpos, hclean⟩ := not_or.mp hno
      have herrors := hback.mpr fun q hq hc => hclean ⟨q, hq, hc⟩
      exact hpos ((hagents herrors).mp (hnothing rfl (by rw [herrors]; rfl)))
    · intro h
      refine ⟨nofun, fun _ hlength => ?_⟩
      have herrors := List.eq_nil_of_length_eq_zero (Nat.succ.inj hlength)
      refine (hagents herrors).mpr ((h htemp moved r k hcut).resolve_right ?_)
      rintro ⟨q, hq, hc⟩
      exact hback.mp herrors q hq hc

end Result

/-! Two links swap their names; two agents are bound to the first, and one allows both sites. -/

def swap : List Rename := [⟨"Berlin", "Bonn", by decide⟩, ⟨"Bonn", "Berlin", by decide⟩]

def swapAgents : Agents where
  ids := [1, 2]
  nodup := by decide
  row
    | 1 => ⟨some "Berlin", .list [.name "Bonn", .name "Berlin"], false⟩
    | _ => ⟨some "Berlin", .null, false⟩

theorem ne_tmpName {n : String} {stamp i : ℕ} (h : n.toList.head? ≠ some '_') :
    n ≠ tmpName stamp i := by
  rintro rfl
  exact h (by simp [tmpName])

theorem swap_fresh : FreshTmp 0 swap swapAgents := by
  have hb : ∀ i, "Berlin" ≠ tmpName 0 i := fun i => ne_tmpName (by decide)
  have hc : ∀ i, "Bonn" ≠ tmpName 0 i := fun i => ne_tmpName (by decide)
  refine ⟨?_, ?_, ?_⟩
  · have h1 : ∀ m, (swapAgents.row 1).Uses m → m = "Berlin" ∨ m = "Bonn" := by
      rintro m (h | h)
      · exact .inl (by simpa [swapAgents, Agent.isBoundTo, eq_comm] using h)
      · simpa [swapAgents, Agent.allows, AllowedSites.names, or_comm] using h
    have h2 : ∀ m, (swapAgents.row 2).Uses m → m = "Berlin" := by
      rintro m (h | h)
      · simpa [swapAgents, Agent.isBoundTo, eq_comm] using h
      · simp [swapAgents, Agent.allows, AllowedSites.names] at h
    intro j hj i huses
    rcases List.mem_cons.mp hj with rfl | hj
    · rcases h1 _ huses with h | h
      · exact hb i h.symm
      · exact hc i h.symm
    · rw [List.mem_singleton.mp hj] at huses
      exact hb i (h2 _ huses).symm
  · intro r hr i
    rcases List.mem_cons.mp hr with rfl | hr
    · exact hb i
    · rw [List.mem_singleton.mp hr]
      exact hc i
  · intro r hr i
    rcases List.mem_cons.mp hr with rfl | hr
    · exact hc i
    · rw [List.mem_singleton.mp hr]
      exact hb i

/-- The second move fails before it has patched a row. -/
theorem cascadeLinkRenames_iff_sample :
    let s : Cascade := ⟨swapAgents, [none, some 0]⟩
    AllOrNothing swap swapAgents (cascadeLinkRenames (· == ·) 0 swap s).1
      (cascadeLinkRenames (· == ·) 0 swap s).2.agents := by
  intro s
  refine (cascadeLinkRenames_iff (s := s) (by simp) (by decide) swap_fresh).mpr fun _ moved r k
    hcut => .inl ?_
  have hout := hcut.outage
  change (List.drop moved.length [none, some 0]).head?.join = some k at hout
  match hlen : moved.length with
  | 0 => simp [hlen] at hout
  | 1 => simpa [hlen, eq_comm] using hout
  | n + 2 => simp [hlen] at hout

/-- The first move fails when one of the two agents has followed it; that agent stays on the
temporary name. -/
theorem swap_leaves_temporary_name :
    let s : Cascade := ⟨swapAgents, [some 1]⟩
    FreshTmp 0 swap swapAgents ∧
      ¬ AllOrNothing swap swapAgents (cascadeLinkRenames (· == ·) 0 swap s).1
        (cascadeLinkRenames (· == ·) 0 swap s).2.agents := by
  intro s
  refine ⟨swap_fresh, fun h => ?_⟩
  have hback : (cascadeLinkRenames (· == ·) 0 swap s).1.rolledBack = true ∧
      (cascadeLinkRenames (· == ·) 0 swap s).1.errors.length = 1 := by decide +kernel
  have hrow : ((cascadeLinkRenames (· == ·) 0 swap s).2.agents.row 1).wgLinkName =
      some "__fg_rename_0_0__" := by
    decide +kernel
  rw [h.nothing hback.1 hback.2] at hrow
  revert hrow
  decide

end FloppyGuard.RenameCascade
