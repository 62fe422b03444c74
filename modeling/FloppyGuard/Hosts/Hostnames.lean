import FloppyGuard.Lib.JsonText
import FloppyGuard.Lib.Rows
import FloppyGuard.Lib.Run
import FloppyGuard.Lib.Text
import Mathlib.Data.List.Infix
import Mathlib.Data.List.Sort
import Mathlib.Logic.Function.Basic

/-! The hostnames of the proxy, redirection and 404 hosts (`host.js`): the check of a create or
update call, and the write that follows it. Every query is a step of its own. -/
namespace FloppyGuard.Hosts

open JsonText (isControl)

/-- What the request schema bars from a hostname. -/
def barredChars : List Char := "&| @!#%^();:/\\\x7d\x7b=+?<>,~`'\"".toList

def isDomainName (n : String) : Bool := n ≠ "" && n.toList.all (· ∉ barredChars)

/-- A `domain_names` list as the request schema lets it pass. -/
structure DomainNames where
  names : List String
  valid : ∀ n ∈ names, isDomainName n = true

/-- `sort()`, before every insert and update. -/
def DomainNames.sort (d : DomainNames) : DomainNames where
  names := d.names.insertionSort fun x y => Text.le x.toList y.toList
  valid n hn := d.valid n ((List.mem_insertionSort _).mp hn)

inductive HostType
  | proxy
  | redirection
  | dead
deriving DecidableEq

def hostTypes : List HostType := [.proxy, .redirection, .dead]

/-- The columns of a host that the check reads. -/
structure Host where
  id : ℕ
  isDeleted : Bool
  domainNames : DomainNames

/-! The column as the database compares it. -/

/-- The text of the `domain_names` column. -/
def jsonText (names : List String) : String :=
  String.ofList ('[' :: [','].intercalate (names.map fun n => JsonText.quote n.toList) ++ [']'])

/-- `toLowerCase`, and the `LIKE` of the database with the pattern `%name%`: it finds a name
whatever its case. A backslash would escape the character behind it. -/
structure Collation where
  toLowerCase : List Char → List Char
  isControl_toLowerCase : ∀ s, (toLowerCase s).all (!isControl ·) = s.all (!isControl ·)
  like : String → String → Bool
  like_of_infix : ∀ name used text : String, '\\' ∉ name.toList →
    toLowerCase name.toList = toLowerCase used.toList →
    used.toList <:+: text.toList → like name text = true

section Check

variable (col : Collation)

def Collation.lowered (n : String) : List Char := col.toLowerCase n.toList

/-- `_loadHostsUsingDomains` -/
def loadHostsUsingDomains (domainNames : List String) (rows : List Host) : List Host :=
  rows.filter fun row => !row.isDeleted && domainNames.any fun name =>
    col.like name (jsonText row.domainNames.names)

/-- `_findTakenHostname` -/
def findTakenHostname (domainNames : List String) (rows : List Host) (ignoreId : ℕ) :
    Option String :=
  let taken := (rows.filter fun row => !(ignoreId ≠ 0 && row.id = ignoreId)).flatMap fun row =>
    row.domainNames.names.map col.lowered
  domainNames.find? fun d => col.lowered d ∈ taken

/-- `assertHostnamesFree`, on the tables as its queries find them. -/
def assertHostnamesFree (domainNames : List String) (self : Option (HostType × ℕ))
    (tables : HostType → List Host) :
    Except String Unit :=
  if domainNames = [] then .ok ()
  else
    let ignoreId (type : HostType) := match self with
      | some (ignoreType, id) => if ignoreType = type then id else 0
      | none => 0
    let hit := hostTypes.findSome? fun type =>
      findTakenHostname col domainNames (loadHostsUsingDomains col domainNames (tables type))
        (ignoreId type)
    match hit with
    | some hit => .error (hit ++ " is already in use")
    | none => .ok ()

end Check

/-! The calls. -/

inductive Op
  | create (type : HostType) (names : DomainNames)
  | update (type : HostType) (id : ℕ) (names : Option DomainNames)

def Op.names : Op → List String
  | .create _ names => names.names
  | .update _ _ names => (names.map DomainNames.names).getD []

def Op.self : Op → Option (HostType × ℕ)
  | .create _ _ => none
  | .update type id _ => some (type, id)

inductive Call
  /-- the tables as the queries of the check have found them so far -/
  | checking (op : Op) (tables : HostType → Option (List Host))
  /-- an update with its row; `seen` are the tables the names were free in -/
  | patching (type : HostType) (id : ℕ) (names : Option DomainNames) (row : Host)
    (seen : HostType → List Host)

structure State where
  tables : HostType → Rows Host Host.id
  calls : ℕ → Option Call

inductive Act
  | create (c : ℕ) (type : HostType) (names : DomainNames)
  | update (c : ℕ) (type : HostType) (id : ℕ) (names : Option DomainNames)
  | load (c : ℕ) (type : HostType)
  | insert (c : ℕ)
  | readRow (c : ℕ)
  | patch (c : ℕ)

namespace State

variable (s : State)

def rows (type : HostType) : List Host := (s.tables type).rows

def begin (c : ℕ) (call : Call) : State := { s with calls := Function.update s.calls c (some call) }

def store (c : ℕ) (type : HostType) (table : Rows Host Host.id) : State :=
  ⟨Function.update s.tables type table, Function.update s.calls c none⟩

end State

def loaded (tables : HostType → Option (List Host)) (type : HostType) : List Host :=
  (tables type).getD []

/-- All queries of the check are done, and it passes. -/
def passes (col : Collation) (op : Op) (tables : HostType → Option (List Host)) : Bool :=
  (op.names = [] || hostTypes.all fun type => (tables type).isSome) &&
    (assertHostnamesFree col op.names op.self (loaded tables)).isOk

def newRow (names : DomainNames) (id : ℕ) : Host := ⟨id, false, names.sort⟩

def setNames (names : DomainNames) (row : Host) : Host := { row with domainNames := names.sort }

theorem setNames_id (names : DomainNames) (row : Host) : (setNames names row).id = row.id := rfl

def step (col : Collation) (s : State) : Act → Option State
  | .create c type names =>
    if (s.calls c).isNone then some (s.begin c (.checking (.create type names) fun _ => none))
      else none
  | .update c type id names =>
    if (s.calls c).isNone then some (s.begin c (.checking (.update type id names) fun _ => none))
      else none
  | .load c type =>
    match s.calls c with
    | some (.checking op tables) =>
      some (s.begin c (.checking op (Function.update tables type (some (s.rows type)))))
    | _ => none
  | .insert c =>
    match s.calls c with
    | some (.checking (.create type names) tables) =>
      if passes col (.create type names) tables then
        some (s.store c type ((s.tables type).insert (newRow names) fun _ => rfl))
      else none
    | _ => none
  | .readRow c =>
    match s.calls c with
    | some (.checking (.update type id names) tables) =>
      if passes col (.update type id names) tables then
        ((s.rows type).find? fun row => row.id = id && !row.isDeleted).map fun row =>
          -- without names there is no check, and the row's own names are written back
          s.begin c (.patching type id names row (if names.isSome then loaded tables else s.rows))
      else none
    | _ => none
  | .patch c =>
    match s.calls c with
    | some (.patching type id names row _) =>
      let written := names.getD row.domainNames
      some (s.store c type
          ((s.tables type).patch (fun r => r.id = id) (setNames written) (setNames_id written)))
    | _ => none

/-! What a step can do. -/

inductive Step (col : Collation) (s : State) : Act → State → Prop
  | create {c type names} : Step col s (.create c type names)
      (s.begin c (.checking (.create type names) fun _ => none))
  | update {c type id names} :
      Step col s (.update c type id names)
        (s.begin c (.checking (.update type id names) fun _ => none))
  | load {c type op tables} (h : s.calls c = some (.checking op tables)) :
      Step col s (.load c type)
        (s.begin c (.checking op (Function.update tables type (some (s.rows type)))))
  | insert {c type names tables} (h : s.calls c = some (.checking (.create type names) tables))
      (hp : passes col (.create type names) tables = true) :
      Step col s (.insert c) (s.store c type ((s.tables type).insert (newRow names) fun _ => rfl))
  | readRow {c type id names tables row}
      (h : s.calls c = some (.checking (.update type id names) tables))
      (hp : passes col (.update type id names) tables = true) (hrow : row ∈ s.rows type)
      (hid : row.id = id) (hlive : row.isDeleted = false) :
      Step col s (.readRow c)
        (s.begin c (.patching type id names row (if names.isSome then loaded tables else s.rows)))
  | patch {c type id names row seen} (h : s.calls c = some (.patching type id names row seen)) :
      Step col s (.patch c) (s.store c type ((s.tables type).patch (fun r => r.id = id)
        (setNames (names.getD row.domainNames)) (setNames_id (names.getD row.domainNames))))

variable {col : Collation} {s t : State} {a : Act} {c : ℕ}

theorem step_cases (h : step col s a = some t) : Step col s a t := by
  unfold step at h
  split at h
  · split at h
    · exact Option.some.inj h ▸ .create
    · cases h
  · split at h
    · exact Option.some.inj h ▸ .update
    · cases h
  · split at h
    · next hc => exact Option.some.inj h ▸ .load hc
    · cases h
  · split at h
    · next hc =>
      split at h
      · next hp => exact Option.some.inj h ▸ .insert hc hp
      · cases h
    · cases h
  · split at h
    · next hc =>
      split at h
      · next hp =>
        obtain ⟨row, hrow, rfl⟩ := Option.map_eq_some_iff.mp h
        have hfound := List.find?_some hrow
        rw [Bool.and_eq_true, Bool.not_eq_true'] at hfound
        exact .readRow hc hp (List.mem_of_find?_eq_some hrow) (of_decide_eq_true hfound.1) hfound.2
      · cases h
    · cases h
  · split at h
    · next hc => exact Option.some.inj h ▸ .patch hc
    · cases h

/-! Whose a hostname is. -/

/-- The live hosts other than `self` use none of the names. -/
def Free (col : Collation) (tables : HostType → List Host) (self : Option (HostType × ℕ))
    (names : List String) : Prop :=
  ∀ type, ∀ row ∈ tables type, row.isDeleted = false → self ≠ some (type, row.id) →
    ∀ n ∈ names, ∀ n' ∈ row.domainNames.names, col.lowered n ≠ col.lowered n'

/-- A hostname belongs to one host. -/
def Unique (col : Collation) (tables : HostType → List Host) : Prop :=
  ∀ type, ∀ row ∈ tables type, row.isDeleted = false →
    Free col tables (some (type, row.id)) row.domainNames.names

def plainName (n : String) : Bool := n.toList.all fun ch => !isControl ch

variable {tables tables' : HostType → List Host} {self : Option (HostType × ℕ)}
  {names : List String}

theorem Free.mono (h : Free col tables self names) {names' : List String}
    (hsub : ∀ n ∈ names', n ∈ names) :
    Free col tables self names' :=
  fun type row hrow hlive hself n hn => h type row hrow hlive hself n (hsub n hn)

theorem mem_sort {d : DomainNames} {n : String} : n ∈ d.sort.names ↔ n ∈ d.names :=
  List.mem_insertionSort _

/-- One host of the tables is written, with names that no other host uses. -/
theorem Unique.write {q : HostType × ℕ} (h : Unique col tables)
    (hfree : Free col tables (some q) names)
    (hold : ∀ type, ∀ row ∈ tables' type, q ≠ (type, row.id) → row ∈ tables type)
    (hnew : ∀ type, ∀ row ∈ tables' type, q = (type, row.id) → ∀ n ∈ row.domainNames.names,
      n ∈ names) :
    Unique col tables' := by
  intro type row hrow hlive type' row' hrow' hlive' hne n hn n' hn'
  by_cases hkey : q = (type, row.id)
  · have hother : q ≠ (type', row'.id) := fun he => hne (congrArg some (hkey.symm.trans he))
    exact hfree type' row' (hold _ _ hrow' hother) hlive' (fun he => hother (Option.some.inj he))
      n (hnew _ _ hrow hkey n hn) n' hn'
  · have hrow := hold _ _ hrow hkey
    by_cases hkey' : q = (type', row'.id)
    · exact (hfree type row hrow hlive (fun he => hkey (Option.some.inj he))
        n' (hnew _ _ hrow' hkey' n' hn') n hn).symm
    · exact h type row hrow hlive type' row' (hold _ _ hrow' hkey') hlive' hne n hn n' hn'

/-! The check. -/

theorem isDomainName_chars {n : String} (h : isDomainName n = true) :
    ∀ ch ∈ n.toList, ch ∉ barredChars := by
  rw [isDomainName, Bool.and_eq_true, List.all_eq_true] at h
  exact fun ch hch => of_decide_eq_true (h.2 ch hch)

/-- A plain name stands in the column text as it is. -/
theorem infix_jsonText {d : DomainNames} {n : String} (hn : n ∈ d.names)
    (hplain : plainName n = true) :
    n.toList <:+: (jsonText d.names).toList := by
  have hchars : ∀ ch ∈ n.toList, ch ≠ '"' ∧ ch ≠ '\\' ∧ isControl ch = false := by
    intro ch hch
    have hbar := isDomainName_chars (d.valid n hn) ch hch
    exact ⟨fun h => hbar (h ▸ by decide), fun h => hbar (h ▸ by decide),
      by simpa using List.all_eq_true.mp hplain ch hch⟩
  have helem : JsonText.quote n.toList <:+: [','].intercalate (d.names.map fun n : String =>
      JsonText.quote n.toList) :=
    Text.infix_intercalate (List.mem_map_of_mem hn)
  rw [JsonText.quote_plain hchars] at helem
  rw [jsonText, String.toList_ofList]
  exact (List.infix_append ['"'] n.toList ['"']).trans
    (helem.trans (List.infix_append ['['] _ [']']))

theorem plainName_of_lowered {n n' : String} (h : col.lowered n = col.lowered n')
    (hplain : plainName n = true) :
    plainName n' = true := by
  have hcontrol (m : String) : plainName m = (col.lowered m).all fun ch => !isControl ch :=
    (col.isControl_toLowerCase m.toList).symm
  rw [hcontrol, ← h, ← hcontrol]
  exact hplain

/-- The row is one the check ignores, or it uses none of the names. -/
theorem findTakenHostname_none {rows : List Host} {ignoreId : ℕ}
    (h : findTakenHostname col names rows ignoreId = none)
    {row : Host} (hrow : row ∈ rows) (hother : ignoreId ≠ 0 → row.id ≠ ignoreId) :
    ∀ n ∈ names, ∀ n' ∈ row.domainNames.names, col.lowered n ≠ col.lowered n' := by
  intro n hn n' hn' heq
  have htaken := List.find?_eq_none.mp h n hn
  refine htaken (decide_eq_true (List.mem_flatMap.mpr ⟨row, List.mem_filter.mpr ⟨hrow, ?_⟩, ?_⟩))
  · by_cases hzero : ignoreId = 0
    · simp [hzero]
    · simp [hother hzero]
  · exact List.mem_map.mpr ⟨n', hn', heq.symm⟩

/-- A check that passes has found the tables free of the names. -/
theorem free_of_passes {op : Op} {found : HostType → Option (List Host)}
    (h : passes col op found = true)
    (hvalid : ∀ n ∈ op.names, isDomainName n = true ∧ plainName n = true) :
    Free col (loaded found) op.self op.names := by
  intro type row hrow hlive hself n hn n' hn' heq
  obtain ⟨hdomain, hplain⟩ := hvalid n hn
  have hloads : row ∈ loadHostsUsingDomains col op.names (loaded found type) := by
    refine List.mem_filter.mpr ⟨hrow, ?_⟩
    rw [hlive, Bool.not_false, Bool.true_and, List.any_eq_true]
    have hinfix := infix_jsonText hn' (plainName_of_lowered heq hplain)
    exact ⟨n, hn,
      col.like_of_infix _ n' _ (fun hslash => isDomainName_chars hdomain _ hslash (by decide)) heq
        hinfix⟩
  rw [passes, Bool.and_eq_true] at h
  have hcheck := h.2
  rw [assertHostnamesFree, if_neg (List.ne_nil_of_mem hn)] at hcheck
  dsimp only at hcheck
  split at hcheck
  · cases hcheck
  · next hnone =>
    have hnothing := List.findSome?_eq_none_iff.mp hnone type (by cases type <;> decide)
    refine findTakenHostname_none hnothing hloads (fun hignored hid => ?_) n hn n' hn' heq
    cases hop : op.self with
    | none => simp [hop] at hignored
    | some key =>
      obtain ⟨ignoreType, id⟩ := key
      rw [hop] at hignored hid hself
      dsimp only at hignored hid
      split at hid
      · next htype =>
        subst htype
        exact hself (by rw [hid])
      · next htype => exact hignored (if_neg htype)

/-! The condition on a step: plain names, and no name taken between a check and its write. -/

/-- Every other live host that uses one of the names used it already in the tables a call has seen.
-/
def usedBefore (col : Collation) (tables : HostType → List Host) (self : Option (HostType × ℕ))
    (names : List String)
    (seen : HostType → List Host) : Bool :=
  hostTypes.all fun type => (tables type).all fun row =>
    row.isDeleted || self = some (type, row.id) || row.domainNames.names.all fun n' =>
      names.all (fun n => col.lowered n ≠ col.lowered n') || (seen type).any fun q =>
        !q.isDeleted && q.id = row.id && q.domainNames.names.any fun m =>
          col.lowered m = col.lowered n'

def undisturbed (col : Collation) (s : State) : Act → Bool
  | .create _ _ names => names.names.all plainName
  | .update _ _ _ names => names.all fun names => names.names.all plainName
  | .insert c =>
    match s.calls c with
    | some (.checking op tables) => usedBefore col s.rows op.self op.names (loaded tables)
    | _ => true
  | .patch c =>
    match s.calls c with
    | some (.patching type id names row seen) =>
      usedBefore col s.rows (some (type, id)) (names.getD row.domainNames).names seen
    | _ => true
  | _ => true

theorem Free.of_usedBefore {seen : HostType → List Host} (h : Free col seen self names)
    (hbefore : usedBefore col tables self names seen = true) : Free col tables self names := by
  intro type row hrow hlive hself n hn n' hn' heq
  have hrowbefore :=
    List.all_eq_true.mp (List.all_eq_true.mp hbefore type (by cases type <;> decide)) row hrow
  rw [hlive, Bool.false_or, decide_eq_false hself, Bool.false_or] at hrowbefore
  rcases Bool.or_eq_true_iff.mp (List.all_eq_true.mp hrowbefore n' hn') with hnone | hsome
  · exact of_decide_eq_true (List.all_eq_true.mp hnone n hn) heq
  · obtain ⟨q, hq, hqrow⟩ := List.any_eq_true.mp hsome
    simp only [Bool.and_eq_true, Bool.not_eq_true', decide_eq_true_eq, List.any_eq_true] at hqrow
    obtain ⟨⟨hqlive, hid⟩, m, hm, hmn⟩ := hqrow
    exact h type q hq hqlive (hid ▸ hself) n hn m hm (heq.trans hmn.symm)

/-! One step. -/

/-- A check is about plain names; the names of an update were free when it saw the tables. -/
def Call.Sound (col : Collation) : Call → Prop
  | .checking op _ => ∀ n ∈ op.names, isDomainName n = true ∧ plainName n = true
  | .patching type id names row seen =>
    Free col seen (some (type, id)) (names.getD row.domainNames).names

structure Sound (col : Collation) (s : State) : Prop where
  unique : Unique col s.rows
  calls : ∀ c call, s.calls c = some call → call.Sound col

theorem calls_begin (h : ∀ c call, s.calls c = some call → call.Sound col) {call : Call}
    (hcall : call.Sound col) :
    ∀ c' call', (s.begin c call).calls c' = some call' → call'.Sound col := by
  intro c' call' hc'
  change Function.update s.calls c (some call) c' = some call' at hc'
  rw [Function.update_apply] at hc'
  split at hc'
  · exact Option.some.inj hc' ▸ hcall
  · exact h c' call' hc'

theorem calls_store (h : ∀ c call, s.calls c = some call → call.Sound col) {type : HostType}
    {table : Rows Host Host.id} :
    ∀ c' call', (s.store c type table).calls c' = some call' → call'.Sound col := by
  intro c' call' hc'
  change Function.update s.calls c none c' = some call' at hc'
  rw [Function.update_apply] at hc'
  split at hc'
  · cases hc'
  · exact h c' call' hc'

theorem rows_store {type type' : HostType} {table : Rows Host Host.id} :
    (s.store c type table).rows type' = if type' = type then table.rows else s.rows type' := by
  change (Function.update s.tables type table type').rows = _
  rw [Function.update_apply]
  split <;> rfl

theorem plain_names {d : DomainNames} (h : d.names.all plainName = true) :
    ∀ n ∈ d.names, isDomainName n = true ∧ plainName n = true :=
  fun n hn => ⟨d.valid n hn, List.all_eq_true.mp h n hn⟩

theorem Sound.step (h : Sound col s) (hs : Step col s a t) (hok : undisturbed col s a = true) :
    Sound col t := by
  cases hs with
  | create => exact ⟨h.unique, calls_begin h.calls (plain_names hok)⟩
  | @update c type id names =>
    refine ⟨h.unique, calls_begin h.calls ?_⟩
    cases names with
    | none => exact fun n hn => nomatch hn
    | some names => exact plain_names hok
  | load hc => exact ⟨h.unique, calls_begin h.calls (h.calls _ _ hc :)⟩
  | @insert c type names found hc hp =>
    rw [undisturbed, hc] at hok
    have hfree := (free_of_passes hp (h.calls _ _ hc)).of_usedBefore hok
    refine ⟨h.unique.write (q := (type, (s.tables type).nextId)) (fun type row hrow hlive _ =>
      hfree type row hrow hlive nofun)
      (fun type' row hrow hne => ?_) (fun type' row hrow heq => ?_), calls_store h.calls⟩
    · rw [rows_store] at hrow
      split at hrow
      · next htype =>
        subst htype
        rcases Rows.mem_insert.mp hrow with hrow | rfl
        · exact hrow
        · exact absurd rfl hne
      · exact hrow
    · obtain ⟨rfl, hid⟩ := Prod.mk.inj heq
      rw [rows_store, if_pos rfl] at hrow
      rcases Rows.mem_insert.mp hrow with hrow | rfl
      · exact absurd hid (Nat.ne_of_gt ((s.tables type).ids row hrow).2)
      · exact fun n hn => mem_sort.mp hn
  | @readRow c type id names found row hc hp hrow hid hlive =>
    refine ⟨h.unique, calls_begin h.calls ?_⟩
    cases names with
    | none => exact hid ▸ h.unique type row hrow hlive
    | some names => exact free_of_passes hp (h.calls _ _ hc)
  | @patch c type id names row seen hc =>
    rw [undisturbed, hc] at hok
    have hfree := Free.of_usedBefore (h.calls _ _ hc) hok
    refine ⟨h.unique.write hfree (fun type' r hr hne => ?_) (fun type' r hr heq => ?_),
      calls_store h.calls⟩
    · rw [rows_store] at hr
      split at hr
      · next htype =>
        subst htype
        obtain ⟨q, hq, rfl⟩ := List.mem_map.mp hr
        by_cases hqid : q.id = id
        · simp [hqid, setNames_id] at hne
        · rw [if_neg fun h => hqid (of_decide_eq_true h)]
          exact hq
      · exact hr
    · obtain ⟨rfl, hid⟩ := Prod.mk.inj heq
      rw [rows_store, if_pos rfl] at hr
      obtain ⟨q, hq, rfl⟩ := List.mem_map.mp hr
      have hqid : q.id = id := by
        split at hid
        · rw [hid, setNames_id]
        · exact hid.symm
      rw [if_pos (decide_eq_true hqid)]
      exact fun n hn => mem_sort.mp hn

/-- The steps that meet the condition. -/
def Undisturbed (col : Collation) : State → Act → State → Prop :=
  Guarded (fun s a t => step col s a = some t) fun s a => undisturbed col s a = true

/-- Hostnames that belong to one host each still do after every run of creates and updates, as long
as the names asked for are plain and no host takes a name between another call's check and its
write. -/
theorem hostnames_stay_unique {s₀ s : State} {acts : List Act} (hstart : ∀ c, s₀.calls c = none)
    (hunique : Unique col s₀.rows)
    (hrun : Run (Undisturbed col) s₀ acts s) : Unique col s.rows := by
  have hsound : Sound col s₀ := ⟨hunique, fun c call hc => by rw [hstart] at hc; cases hc⟩
  have hend : Sound col s := by
    refine hrun.guarded_invariant (I := Sound col) (fun s a t hs hok h => ?_) hsound
    exact h.step (step_cases hs) hok
  exact hend.unique

/-! Names that stay apart, and names that do not. -/

def asciiLike (name text : String) : Bool :=
  (text.toList.map Char.toLower).tails.any fun rest =>
    (name.toList.map Char.toLower).isPrefixOf rest

theorem asciiLike_of_infix {name text : String}
    (h : name.toList.map Char.toLower <:+: text.toList.map Char.toLower) :
    asciiLike name text = true := by
  obtain ⟨pre, post, h⟩ := h
  rw [List.append_assoc] at h
  exact List.any_eq_true.mpr ⟨name.toList.map Char.toLower ++ post,
    (List.mem_tails _ _).mpr ⟨pre, h⟩,
    List.isPrefixOf_iff_prefix.mpr (List.prefix_append _ _)⟩

theorem isControl_toLower (ch : Char) : isControl ch.toLower = isControl ch := by
  unfold isControl Char.toLower
  split
  · next h =>
    have hlow : 65 ≤ ch.toNat := h.1
    have hhigh : ch.toNat ≤ 90 := h.2
    have hsum : (ch.val + ('a'.val - 'A'.val)).toNat = ch.toNat + 32 := by
      rw [UInt32.toNat_add]
      change (ch.toNat + 32) % 2 ^ 32 = _
      omega
    change decide ((ch.val + ('a'.val - 'A'.val)).toNat < 32) = decide (ch.toNat < 32)
    rw [hsum, decide_eq_decide]
    omega
  · rfl

def ascii : Collation where
  toLowerCase s := s.map Char.toLower
  isControl_toLowerCase s := by
    rw [List.all_map]
    exact List.all_congr rfl fun ch => congrArg not (isControl_toLower ch)
  like := asciiLike
  like_of_infix name used text _ heq h := by
    have hmap := h.map Char.toLower
    rw [← heq] at hmap
    exact asciiLike_of_infix hmap

def nobody : State := ⟨fun _ => Rows.empty, fun _ => none⟩

theorem unique_nobody : Unique col nobody.rows := fun _ _ hrow => absurd hrow List.not_mem_nil

def oneName (n : String) (h : isDomainName n = true) : DomainNames :=
  ⟨[n], fun _ hm => List.mem_singleton.mp hm ▸ h⟩

def check (c : ℕ) : List Act := hostTypes.map (.load c)

def created (c : ℕ) (type : HostType) (names : DomainNames) : List Act :=
  .create c type names :: check c ++ [.insert c]

/-- Two hosts are created and one of them is renamed. -/
def apart : List Act :=
  created 0 .proxy (oneName "a.de" (by decide)) ++ created 1 .redirection
    (oneName "b.de" (by decide)) ++
    .update 2 .proxy 1 (some (oneName "c.de" (by decide))) :: check 2 ++ [.readRow 2, .patch 2]

theorem hostnames_stay_unique_sample :
    ∃ s, Run (Undisturbed ascii) nobody apart s ∧ Unique ascii s.rows := by
  have hrun : (apart.foldlM (Run.checked (step ascii) fun s a => undisturbed ascii s a = true)
      nobody).isSome = true := by
    decide +kernel
  obtain ⟨s, hs⟩ := Option.isSome_iff_exists.mp hrun
  exact ⟨s, Run.of_checked hs,
    hostnames_stay_unique (fun _ => rfl) unique_nobody (Run.of_checked hs)⟩

/-- A proxy and a redirection host share a name. -/
def shared (col : Collation) (s : State) : Bool :=
  (s.rows .proxy).any fun row => (s.rows .redirection).any fun row' => !row.isDeleted &&
    !row'.isDeleted &&
    row.domainNames.names.any fun n => row'.domainNames.names.any fun n' =>
      col.lowered n = col.lowered n'

theorem not_unique_of_shared (h : shared col s = true) : ¬ Unique col s.rows := by
  simp only [shared, List.any_eq_true, Bool.and_eq_true, Bool.not_eq_true', decide_eq_true_eq] at h
  obtain ⟨row, hrow, row', hrow', ⟨hlive, hlive'⟩, n, hn, n', hn', heq⟩ := h
  exact fun hu => hu .proxy row hrow hlive .redirection row' hrow' hlive' nofun n hn n' hn' heq

/-- Both creates check before either inserts. -/
def racing : List Act :=
  .create 0 .proxy (oneName "a.de" (by decide)) :: .create 1 .redirection
    (oneName "A.de" (by decide)) ::
    (check 0 ++ check 1 ++ [.insert 0, .insert 1])

/-- An update without names writes back names that have been given up meanwhile. -/
def staleNames : List Act :=
  created 0 .proxy (oneName "a.de" (by decide)) ++ .update 1 .proxy 1 none :: .readRow 1 ::
    .update 2 .proxy 1 (some (oneName "b.de" (by decide))) :: check 2 ++ [.readRow 2, .patch 2] ++
    created 3 .redirection (oneName "a.de" (by decide)) ++ [.patch 1]

/-- A tab, which the column holds escaped. -/
def escapedName : List Act :=
  created 0 .proxy (oneName "a\tb" (by decide)) ++ created 1 .redirection
    (oneName "a\tb" (by decide))

theorem run_shared {acts : List Act}
    (h : ((acts.foldlM (step ascii) nobody).map (shared ascii)) = some true) :
    ∃ s, Run (fun s a t => step ascii s a = some t) nobody acts s ∧ ¬ Unique ascii s.rows := by
  obtain ⟨s, hs, hshared⟩ := Option.map_eq_some_iff.mp h
  exact ⟨s, Run.of_foldlM hs, not_unique_of_shared hshared⟩

theorem hostnames_shared : Unique ascii nobody.rows ∧
    (∃ s, Run (fun s a t => step ascii s a = some t) nobody racing s ∧ ¬ Unique ascii s.rows) ∧
    (∃ s, Run (fun s a t => step ascii s a = some t) nobody staleNames s ∧ ¬ Unique ascii s.rows) ∧
    ∃ s, Run (fun s a t => step ascii s a = some t) nobody escapedName s ∧ ¬ Unique ascii s.rows :=
  ⟨unique_nobody, run_shared (by decide +kernel), run_shared (by decide +kernel),
    run_shared (by decide +kernel)⟩

end FloppyGuard.Hosts
