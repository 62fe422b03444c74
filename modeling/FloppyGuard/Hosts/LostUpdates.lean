import FloppyGuard.Lib.Overwrite
import FloppyGuard.Lib.Run
import FloppyGuard.Nginx.Configure
import Mathlib.Logic.Function.Basic

/-! The row of a proxy or redirection host under concurrent calls. `update` writes the whole row it
has read, and every write of `meta` writes a whole object. -/
namespace FloppyGuard.Hosts.LostUpdates

open Nginx (NginxMeta rejectedMeta)

/-- A value of a column or of an entry of `meta`. -/
inductive Value
  | null
  | bool (b : Bool)
  | num (n : Int)
  | str (s : String)
  | array (items : List Value)
  | object (entries : String → Option Value)

def Value.truthy : Value → Bool
  | .null => false
  | .bool b => b
  | .num n => n ≠ 0
  | .str s => s ≠ ""
  | .array _ | .object _ => true

def truthy (v : Option Value) : Bool := v.any Value.truthy

inductive Column
  | certificateId
  | accessListId
  | sslForced
  | http2Support
  | hstsEnabled
  | hstsSubdomains
  | enabled
  | other (name : String)
deriving DecidableEq

/-- The columns of a row, `meta` with its keys. -/
inductive Field
  | column (c : Column)
  | metaKey (key : String)
deriving DecidableEq

abbrev Row := Field → Option Value
abbrev Columns := Column → Option Value
abbrev Meta := String → Option Value

def Row.columns (row : Row) : Columns := fun c => row (.column c)

def Row.meta (row : Row) : Meta := fun key => row (.metaKey key)

def Row.of (columns : Columns) (newMeta : Meta) : Row
  | .column c => columns c
  | .metaKey key => newMeta key

/-! `host.js` -/

/-- `_.assign({}, existing, data)` -/
def assigned (data existing : Columns) : Columns := fun c => (data c).or (existing c)

def forceOff (flags : List Column) (off : Bool) (data : Columns) : Columns :=
  fun c => if off && c ∈ flags then some (.bool false) else data c

def offWithoutCertificate (data : Columns) : Columns :=
  forceOff [.sslForced, .http2Support] (!truthy (data .certificateId)) data

def offWithoutSsl (data : Columns) : Columns :=
  forceOff [.hstsEnabled] (!truthy (data .sslForced)) data

def offWithoutHsts (data : Columns) : Columns :=
  forceOff [.hstsSubdomains] (!truthy (data .hstsEnabled)) data

def cleanSslHstsData (data existing : Columns) : Columns :=
  offWithoutHsts (offWithoutSsl (offWithoutCertificate (assigned data existing)))

/-- The flags that `cleanSslHstsData` forces off. -/
def forcedOff (data existing : Columns) (c : Column) : Bool :=
  let combined := assigned data existing
  let withSsl := offWithoutCertificate combined
  let withHsts := offWithoutSsl withSsl
  !truthy (combined .certificateId) && c ∈ [.sslForced, .http2Support] ||
    !truthy (withSsl .sslForced) && c ∈ [.hstsEnabled] || !truthy (withHsts .hstsEnabled) &&
      c ∈ [.hstsSubdomains]

/-! `meta`: `cloudflare-dns.js`, `geo-filter.js`, `nginx.js` -/

def assignMeta (m entries : Meta) : Meta := fun key => (entries key).or (m key)


def serverFields : List String := ["records", "status", "error", "syncedAt"]

def configKeys : List String := ["cloudflareDns", "cloudflare_dns"]

/-- A config of the request, with the server's fields of the stored one. -/
def sanitizeConfig (incoming stored : Option Value) : Option Value :=
  match incoming, stored with
  | some (.object config), some (.object stored) =>
    some (.object fun field => if field ∈ serverFields then stored field else config field)
  | some (.object config), _ =>
    some (.object fun field => if field ∈ serverFields then none else config field)
  | _, _ => incoming

def sanitizeMeta (incoming stored : Meta) : Meta :=
  fun key => if key ∈ configKeys then sanitizeConfig (incoming key) (stored key) else incoming key

def isTrue : Option Value → Bool
  | some (.bool b) => b
  | _ => false

def sanitizeGeoMeta (m : Meta) : Meta :=
  if (m "geo_filter").isNone && (m "geoFilter").isNone then m
  else fun key =>
    if key = "geo_filter" then some (.bool (isTrue (m "geo_filter") || isTrue (m "geoFilter")))
    else if key = "geoFilter" then none
    else m key

def configKey (m : Meta) : String :=
  if truthy (m "cloudflareDns") then "cloudflareDns" else "cloudflare_dns"

/-- The config after a sync, with the server's fields as the sync leaves them. -/
def syncedConfig (config outcome : Meta) : Value :=
  .object fun field => if field ∈ serverFields then (outcome field).or (config field)
    else config field

/-- What a sync writes; a host without a config is left alone. -/
def syncEntries (m outcome : Meta) : Option Meta :=
  match m (configKey m) with
  | some (.object config) =>
    some fun key => if key = configKey m then some (syncedConfig config outcome) else none
  | _ => none

/-- How `nginx -t` ends for the conf of the host; a rejection says whether the previous conf is
back. -/
inductive Outcome
  | passed
  | rejected (restored : Bool) (output : String)

def configureMeta : Outcome → NginxMeta
  | .passed => ⟨true, none⟩
  | .rejected restored output => rejectedMeta restored output

/-- `clearHostErrors`, `markHostsRejected` -/
def bulkMeta : Outcome → NginxMeta
  | .passed => ⟨true, none⟩
  | .rejected true output =>
    ⟨true,
      some ("Regenerated config rejected by nginx -t; the previous config is still active:\n" ++
        output)⟩
  | .rejected false output => ⟨false, some output⟩

def nginxEntries (m : NginxMeta) (key : String) : Option Value :=
  if key = "nginx_online" then some (.bool m.nginxOnline)
  else if key = "nginx_err" then some ((m.nginxErr.map Value.str).getD .null)
  else none

/-- The hosts whose error `clearHostErrors` clears. -/
def isStale (row : Row) : Bool :=
  (row (.column .enabled)).all (fun v => match v with
    | .bool false | .num 0 => false
    | _ => true) &&
  (truthy (row.meta "nginx_err") || match row.meta "nginx_online" with
    | some (.bool false) => true
    | _ => false)

/-- `configure` rejects when the previous conf is back. -/
def Outcome.throws : Outcome → Bool
  | .passed => false
  | .rejected restored _ => restored

def writesBulk (row : Row) : Outcome → Bool
  | .passed => isStale row
  | .rejected _ _ => true

def usesList (listId : Int) (row : Row) : Bool :=
  match row (.column .accessListId) with
  | some (.num n) => n = listId
  | _ => false

/-! The calls. -/

inductive HostType
  | proxy
  | redirection
deriving DecidableEq

/-- The body of an update; `certificate_id` may be `"new"`. -/
structure Payload where
  columns : Columns
  newMeta : Option Meta
  createCertificate : Bool

def sanitized (type : HostType) (payload : Payload) (row : Row) : Payload :=
  match type with
  | .proxy =>
    { payload with
      newMeta := payload.newMeta.map fun m => sanitizeGeoMeta (sanitizeMeta m row.meta) }
  | .redirection => payload

/-- The row that an update patches. -/
def patched (payload : Payload) (row : Row) : Row :=
  Row.of (cleanSslHstsData payload.columns row.columns) (payload.newMeta.getD row.meta)

inductive Call
  | updating (payload : Payload) (row : Row)
  | patchedRow
  | enabling (row : Row)
  | disabling
  /-- the delete of an access list -/
  | unlinking (listId : Int) (row : Row)
  | configuring (row : Row) (sync : Bool)
  | bulk (row : Row)
  | syncing (newMeta : Meta)

/-- `asked` is the row with each write reduced to what its call was asked to set. -/
structure State where
  row : Row
  asked : Row
  calls : ℕ → Option Call

inductive Act
  | update (c : ℕ) (payload : Payload)
  | certificate (c : ℕ) (id : ℕ)
  | patch (c : ℕ)
  | reread (c : ℕ)
  | enable (c : ℕ)
  | patchEnabled (c : ℕ)
  | disable (c : ℕ)
  | patchDisabled (c : ℕ)
  | deleteAccessList (c : ℕ) (listId : Int)
  | unlink (c : ℕ)
  | startConfigure (c : ℕ)
  | startBulk (c : ℕ)
  | configure (c : ℕ) (outcome : Outcome)
  | bulk (c : ℕ) (outcome : Outcome)
  | sync (c : ℕ) (outcome : Meta)
  | finish (c : ℕ)

/-! One step: the row after it, and the call. -/

section Step

variable (type : HostType) (s : State)

def Row.withMeta (row : Row) (newMeta : Meta) : Row := Row.of row.columns newMeta

def Row.setColumn (row : Row) (c : Column) (v : Value) : Row :=
  Function.update row (.column c) (some v)

def next : Act → Option (Row × ℕ × Option Call)
  | .update c payload =>
    if (s.calls c).isNone then
      some (s.row, c, some (.updating (sanitized type payload s.row) s.row)) else none
  | .certificate c id =>
    match s.calls c with
    | some (.updating payload row) =>
      if payload.createCertificate then
        let columns := Function.update payload.columns .certificateId (some (.num id))
        some (s.row, c, some (.updating { payload with columns, createCertificate := false } row))
      else none
    | _ => none
  | .patch c =>
    match s.calls c with
    | some (.updating payload row) =>
      if payload.createCertificate then none else some (patched payload row, c, some .patchedRow)
    | _ => none
  | .reread c =>
    match s.calls c with
    | some .patchedRow =>
      if type = .proxy && !truthy (s.row (.column .enabled)) then some (s.row, c, none)
      else some (s.row, c, some (.configuring s.row (type = .proxy)))
    | _ => none
  | .enable c =>
    if (s.calls c).isNone && !truthy (s.row (.column .enabled)) then
      some (s.row, c, some (.enabling s.row)) else none
  | .patchEnabled c =>
    match s.calls c with
    | some (.enabling row) =>
      some (s.row.setColumn .enabled (.bool true), c, some (.configuring row false))
    | _ => none
  | .disable c =>
    if (s.calls c).isNone && truthy (s.row (.column .enabled)) then some (s.row, c, some .disabling)
      else none
  | .patchDisabled c =>
    match s.calls c with
    | some .disabling => some (s.row.setColumn .enabled (.bool false), c, none)
    | _ => none
  | .deleteAccessList c listId =>
    if (s.calls c).isNone then some (s.row, c, some (.unlinking listId s.row)) else none
  | .unlink c =>
    match s.calls c with
    | some (.unlinking listId row) =>
      some (if usesList listId s.row then s.row.setColumn .accessListId (.num 0) else s.row, c,
        if usesList listId row then some (.bulk row) else none)
    | _ => none
  | .startConfigure c =>
    if (s.calls c).isNone then some (s.row, c, some (.configuring s.row false)) else none
  | .startBulk c => if (s.calls c).isNone then some (s.row, c, some (.bulk s.row)) else none
  | .configure c outcome =>
    match s.calls c with
    | some (.configuring row sync) =>
      let newMeta := assignMeta row.meta (nginxEntries (configureMeta outcome))
      some (s.row.withMeta newMeta, c, if sync && !outcome.throws then some (.syncing newMeta)
        else none)
    | _ => none
  | .bulk c outcome =>
    match s.calls c with
    | some (.bulk row) =>
      if writesBulk row outcome then
        some (s.row.withMeta (assignMeta row.meta (nginxEntries (bulkMeta outcome))), c, none)
      else some (s.row, c, none)
    | _ => none
  | .sync c outcome =>
    match s.calls c with
    | some (.syncing newMeta) =>
      (syncEntries newMeta outcome).map fun entries =>
        (s.row.withMeta (assignMeta newMeta entries), c, none)
    | _ => none
  | .finish c => some (s.row, c, none)

/-! What a step is asked to set, and what it takes over from a copy. -/

def updateWrite (payload : Payload) (row : Row) : Overwrite Field (Option Value) where
  sets
    | .column c =>
      if (payload.columns c).isSome || forcedOff payload.columns row.columns c then
        some (cleanSslHstsData payload.columns row.columns c)
      else none
    | .metaKey key => payload.newMeta.map fun m => m key
  copies _ := true
  copy := row

def columnWrite (c : Column) (v : Value) : Overwrite Field (Option Value) where
  sets f := if f = .column c then some (some v) else none
  copies _ := false
  copy _ := none

def metaWrite (m entries : Meta) : Overwrite Field (Option Value) where
  sets
    | .column _ => none
    | .metaKey key => (entries key).map some
  copies
    | .column _ => false
    | .metaKey _ => true
  copy := Row.of (fun _ => none) m

def writeOf : Act → Option (Overwrite Field (Option Value))
  | .patch c =>
    match s.calls c with
    | some (.updating payload row) => some (updateWrite payload row)
    | _ => none
  | .patchEnabled _ => some (columnWrite .enabled (.bool true))
  | .patchDisabled _ => some (columnWrite .enabled (.bool false))
  | .unlink c =>
    match s.calls c with
    | some (.unlinking listId _) =>
      if usesList listId s.row then some (columnWrite .accessListId (.num 0)) else none
    | _ => none
  | .configure c outcome =>
    match s.calls c with
    | some (.configuring row _) => some (metaWrite row.meta (nginxEntries (configureMeta outcome)))
    | _ => none
  | .bulk c outcome =>
    match s.calls c with
    | some (.bulk row) =>
      if writesBulk row outcome then some (metaWrite row.meta (nginxEntries (bulkMeta outcome)))
      else none
    | _ => none
  | .sync c outcome =>
    match s.calls c with
    | some (.syncing newMeta) => (syncEntries newMeta outcome).map (metaWrite newMeta)
    | _ => none
  | _ => none

def askedAfter (a : Act) : Row :=
  match writeOf s a with
  | some w => w.setOnly s.asked
  | none => s.asked

def step (a : Act) : Option State :=
  (next type s a).map fun n => ⟨n.1, askedAfter s a, Function.update s.calls n.2.1 n.2.2⟩

end Step

variable {type : HostType} {s t : State} {a : Act} {payload : Payload} {row : Row}
  {m entries : Meta}

/-- A column that is neither in the payload nor forced off is the one that was read. -/
theorem cleanSslHstsData_of_not_forced {data existing : Columns} {c : Column}
    (hdata : data c = none)
    (hforced : forcedOff data existing c = false) :
    cleanSslHstsData data existing c = existing c := by
  simp only [forcedOff, Bool.or_eq_false_iff] at hforced
  obtain ⟨⟨hcertificate, hssl⟩, hhsts⟩ := hforced
  calc cleanSslHstsData data existing c
      = offWithoutSsl (offWithoutCertificate (assigned data existing)) c :=
        if_neg (by simpa using hhsts)
    _ = offWithoutCertificate (assigned data existing) c := if_neg (by simpa using hssl)
    _ = assigned data existing c := if_neg (by simpa using hcertificate)
    _ = existing c := by rw [assigned, hdata, Option.none_or]

theorem patched_eq_apply (r : Row) : patched payload row = (updateWrite payload row).apply r := by
  funext f
  cases f with
  | column c =>
    cases hsets : (updateWrite payload row).sets (.column c) with
    | some v =>
      rw [Overwrite.apply_of_sets hsets]
      exact Option.some.inj ((Option.ite_none_right_eq_some.mp hsets).2 ▸ rfl)
    | none =>
      rw [Overwrite.apply_of_not_sets hsets]
      have hno : ((payload.columns c).isSome || forcedOff payload.columns row.columns c) =
          false := by
        by_contra hyes
        rw [updateWrite] at hsets
        dsimp only at hsets
        rw [if_pos (Bool.not_eq_false _ ▸ hyes)] at hsets
        cases hsets
      rw [Bool.or_eq_false_iff, Option.isSome_eq_false_iff, Option.isNone_iff_eq_none] at hno
      exact cleanSslHstsData_of_not_forced hno.1 hno.2
  | metaKey key =>
    rw [Overwrite.apply]
    cases hmeta : payload.newMeta <;> simp [patched, Row.of, updateWrite, hmeta, Row.meta]

theorem setColumn_eq_apply {c : Column} {v : Value} :
    row.setColumn c v = (columnWrite c v).apply row := by
  funext f
  rw [Row.setColumn, Function.update_apply, Overwrite.apply, columnWrite]
  dsimp only
  split <;> rfl

theorem withMeta_eq_apply :
    row.withMeta (assignMeta m entries) = (metaWrite m entries).apply row := by
  funext f
  cases f with
  | column c => rfl
  | metaKey key =>
    change assignMeta m entries key = ((entries key).map some).getD (m key)
    rw [assignMeta]
    cases entries key <;> rfl

/-- A step writes the row through its write, if it has one. -/
theorem next_row {n : Row × ℕ × Option Call} (h : next type s a = some n) :
    n.1 = ((writeOf s a).map fun w => w.apply s.row).getD s.row := by
  unfold next at h
  split at h
  · obtain ⟨-, ⟨⟩⟩ := Option.ite_none_right_eq_some.mp h
    rfl
  · split at h
    · obtain ⟨-, h⟩ := Option.ite_none_right_eq_some.mp h
      cases h
      rfl
    · cases h
  · split at h
    · next hc =>
      obtain ⟨-, h⟩ := Option.ite_none_left_eq_some.mp h
      cases h
      rw [writeOf, hc]
      exact patched_eq_apply s.row
    · cases h
  · split at h
    · split at h <;> cases h <;> rfl
    · cases h
  · obtain ⟨-, ⟨⟩⟩ := Option.ite_none_right_eq_some.mp h
    rfl
  · split at h
    · cases h
      exact setColumn_eq_apply
    · cases h
  · obtain ⟨-, ⟨⟩⟩ := Option.ite_none_right_eq_some.mp h
    rfl
  · split at h
    · cases h
      exact setColumn_eq_apply
    · cases h
  · obtain ⟨-, ⟨⟩⟩ := Option.ite_none_right_eq_some.mp h
    rfl
  · split at h
    · next listId row hc =>
      cases h
      rw [writeOf, hc]
      dsimp only
      split
      · exact setColumn_eq_apply
      · rfl
    · cases h
  · obtain ⟨-, ⟨⟩⟩ := Option.ite_none_right_eq_some.mp h
    rfl
  · obtain ⟨-, ⟨⟩⟩ := Option.ite_none_right_eq_some.mp h
    rfl
  · split at h
    · next hc =>
      cases h
      rw [writeOf, hc]
      exact withMeta_eq_apply
    · cases h
  · split at h
    · next hc =>
      rw [writeOf, hc]
      dsimp only
      split at h <;> cases h
      · next hwrites =>
        rw [if_pos hwrites]
        exact withMeta_eq_apply
      · next hwrites =>
        rw [if_neg hwrites]
        rfl
    · cases h
  · split at h
    · next hc =>
      obtain ⟨entries, hentries, rfl⟩ := Option.map_eq_some_iff.mp h
      rw [writeOf, hc]
      dsimp only
      rw [hentries]
      exact withMeta_eq_apply
    · cases h
  · cases h
    rfl

theorem step_row (h : step type s a = some t) :
    t.row = ((writeOf s a).map fun w => w.apply s.row).getD s.row ∧
      t.asked = ((writeOf s a).map fun w => w.setOnly s.asked).getD s.asked := by
  obtain ⟨n, hnext, rfl⟩ := Option.map_eq_some_iff.mp h
  refine ⟨next_row hnext, ?_⟩
  dsimp only [askedAfter]
  cases writeOf s a <;> rfl

/-- A write takes over only what is still in the row. -/
def fresh (s : State) (a : Act) : Prop := ∀ w, writeOf s a = some w → w.Fresh s.row

/-- A step that starts from what the calls have asked for ends with it exactly if its write is
fresh. -/
theorem step_asked_iff (h : step type s a = some t) (hs : s.row = s.asked) :
    t.row = t.asked ↔ fresh s a := by
  obtain ⟨hrow, hasked⟩ := step_row h
  rw [hrow, hasked, fresh]
  cases writeOf s a with
  | none => simp [hs]
  | some w =>
    rw [Option.map_some, Option.map_some, Option.getD_some, Option.getD_some, ← hs,
      Overwrite.apply_eq_setOnly]
    exact ⟨fun hfresh w' hw' => Option.some.inj hw' ▸ hfresh, fun hfresh => hfresh w rfl⟩

def Fresh (type : HostType) : State → Act → State → Prop :=
  Guarded (fun s a t => step type s a = some t) fresh

/-- After every run the row holds what the calls were asked to set, as long as no write takes over
from its copy what is no longer in the row. -/
theorem no_change_is_lost {s₀ s : State} {acts : List Act} (hstart : s₀.row = s₀.asked)
    (hrun : Run (Fresh type) s₀ acts s) :
    s.row = s.asked := by
  refine hrun.guarded_invariant (I := fun s => s.row = s.asked) (fun s a t hs hfresh h => ?_) hstart
  exact (step_asked_iff hs h).mpr hfresh

/-! An update alone, and changes that are lost. -/

/-- An enabled host with the access list 5. -/
def sampleRow : Row :=
  Row.of (Function.update (Function.update (fun _ => none) .accessListId (some (.num 5))) .enabled
    (some (.bool true)))
    fun _ => none

def sampleStart : State := ⟨sampleRow, sampleRow, fun _ => none⟩

def renamed : Payload :=
  ⟨fun c => if c = .other "forward_host" then some (.str "b") else none, none, false⟩

def filtered : Payload :=
  ⟨fun _ => none, some fun key => if key = "geo_filter" then some (.bool true) else none, false⟩

theorem no_change_is_lost_sample : ∃ s, Run (Fresh .proxy) sampleStart
    [.update 0 renamed, .patch 0, .reread 0, .configure 0 .passed, .finish 0] s ∧
    s.row = s.asked := by
  have hfresh {s : State} {a : Act} (h : writeOf s a = none) : fresh s a :=
    fun w hw => nomatch h.symm.trans hw
  have hrun : ∃ s, Run (Fresh .proxy) sampleStart
      [.update 0 renamed, .patch 0, .reread 0, .configure 0 .passed, .finish 0] s := by
    refine ⟨_, .cons ⟨rfl, hfresh rfl⟩ (.cons ⟨rfl, ?_⟩ (.cons ⟨rfl, hfresh rfl⟩ (.cons ⟨rfl, ?_⟩
      (.cons ⟨rfl, hfresh rfl⟩ (.nil _)))))⟩
    · rintro _ ⟨⟩ f - -
      rfl
    · rintro _ ⟨⟩ f - hcopies
      cases f with
      | column c => cases hcopies
      | metaKey key => rfl
  obtain ⟨s, hs⟩ := hrun
  exact ⟨s, hs, no_change_is_lost rfl hs⟩

/-- The access list is deleted while an update is between its read and its patch. -/
def relinked : List Act :=
  [.update 0 renamed, .deleteAccessList 1 5, .unlink 1, .bulk 1 .passed, .patch 0, .reread 0,
    .configure 0 .passed, .finish 0]

/-- `meta` is updated while a `configure` is between its read and its write. -/
def metaOverwritten : List Act :=
  [.startConfigure 1, .update 0 filtered, .patch 0, .configure 1 .passed, .reread 0,
    .configure 0 .passed, .finish 0]

theorem changes_are_lost :
    (∃ s, Run (fun s a t => step .proxy s a = some t) sampleStart relinked s ∧
      (∀ c, s.calls c = none) ∧
      s.asked (.column .accessListId) = some (.num 0) ∧
      s.row (.column .accessListId) = some (.num 5)) ∧
    ∃ s, Run (fun s a t => step .proxy s a = some t) sampleStart metaOverwritten s ∧
    (∀ c, s.calls c = none) ∧
      s.asked (.metaKey "geo_filter") = some (.bool true) ∧
      s.row (.metaKey "geo_filter") = none := by
  constructor
  · refine ⟨_, Run.of_foldlM rfl, fun c => ?_, rfl, rfl⟩
    by_cases h0 : c = 0 <;> by_cases h1 : c = 1 <;> simp [h0, h1, sampleStart]
  · refine ⟨_, Run.of_foldlM rfl, fun c => ?_, rfl, rfl⟩
    by_cases h0 : c = 0 <;> by_cases h1 : c = 1 <;> simp [h0, h1, sampleStart]

end FloppyGuard.Hosts.LostUpdates
