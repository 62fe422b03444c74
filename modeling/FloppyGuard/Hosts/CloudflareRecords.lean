import FloppyGuard.Lib.Run
import FloppyGuard.Lib.Table
import FloppyGuard.Lib.Text

/-! `cloudflare-dns.js`: the DNS records of one proxy host at Cloudflare, and the list of them that
the host stores. Each domain of a sync and each entry of a clean-up is one step, with the calls of
it that fail. -/
namespace FloppyGuard.Hosts.CloudflareRecords

/-- `RECORD_ID_RE` -/
def isRecordId (s : String) : Bool :=
  s.toList.length = 32 && s.toList.all fun c => c.isDigit || ('a' ≤ c && c ≤ 'f')

/-- An id that Cloudflare has given; only such ids are stored. -/
structure Id where
  text : String
  hex : isRecordId text = true
deriving DecidableEq

def managedComment : String := "Managed by FloppyGuard"

structure Record where
  zone : Id
  name : String
  type : String
  content : String
  proxied : Bool
  comment : String
deriving DecidableEq

structure Zone where
  id : Id
  name : String

/-- `zones`: the active zone of a name. -/
structure Cloud where
  zones : String → Option Zone
  records : Table Id Record

/-- An entry of the stored list, with the name of its zone. -/
structure Entry where
  id : Id
  zone : String

/-- The key `domain|type`, as a pair. -/
abbrev Key := String × String

abbrev Records := Table Key Entry

def ids (records : Records) : List Id := records.values.map Entry.id

def lower (s : String) : List Char := s.toList.map Char.toLower

def recordType (address : String) : String := if ':' ∈ address.toList then "AAAA" else "A"

/-- The names that `findZone` tries: the domain and what follows each dot, but no bare top-level
domain. -/
def zoneNames (domain : String) : List String :=
  ((domain.toList.splitOn '.').tails.filter (1 < ·.length)).map fun labels =>
    String.ofList (['.'].intercalate labels)

def findZone (cloud : Cloud) (domain : String) : Option Zone :=
  (zoneNames domain).findSome? cloud.zones

/-- What comes of a call that writes; when its answer is lost, it has taken effect. -/
inductive Write
  | done
  | failed
  | lost
deriving DecidableEq

/-- The calls that fail: the lookup of the zone, the read of one record, the listing, the write. -/
structure Faults where
  zone : Bool
  read : Bool
  list : Bool
  write : Write

/-- The host and its settings at a sync. Domain names are unique, and there is one address of a
family at most. -/
structure Request where
  domains : List String
  addresses : List String
  enabled : Bool
  proxied : Bool
  /-- there is a token to use -/
  token : Bool
  unique : domains.Nodup
  families : (addresses.map recordType).Nodup

namespace Request

variable (req : Request)

/-- The domains without a wildcard. -/
def named : List String := req.domains.filter fun d => '*' ∉ d.toList

def pairs : List (String × String) := req.named.flatMap fun d => req.addresses.map (d, ·)

def keepNames : List (List Char) := if req.enabled then req.named.map lower else []

end Request

/-- What a call of `syncRecord` does: where the body is written, and the id of the record it
returns. -/
structure Answer where
  written : Option Id
  id : Option Id

/-- A write, and what its answer says. -/
def answer (write : Write) (id : Id) : Answer :=
  ⟨if write = .failed then none else some id, if write = .done then some id else none⟩

/-- The record of the stored id, if it can be read and is shown to be one of the program's for this
name. -/
def known (readFails : Bool) (records : Table Id Record) (body : Record) (recordId : Option Id) :
    Option Id :=
  recordId.filter fun id => !readFails && (records.get? id).any fun existing =>
    existing.zone = body.zone && existing.comment = managedComment && existing.type = body.type &&
      lower existing.name = lower body.name

/-- The records of a name and type. -/
def named (records : Table Id Record) (body : Record) : List (Id × Record) :=
  records.entries.filter fun p => p.2.zone = body.zone && p.2.type = body.type &&
    lower p.2.name = lower body.name

/-- What is done with the records of the name: one that is as wanted is returned, a single one with
the address is taken over, and where there is none a record is created. -/
def byList (write : Write) (found : List (Id × Record)) (fresh : Id) (body : Record) : Answer :=
  match found.find? fun p => p.2.content = body.content && p.2.proxied = body.proxied with
  | some p => ⟨none, some p.1⟩
  | none =>
    match found with
    | [] => answer write fresh
    | [p] => if p.2.content = body.content then answer write p.1 else ⟨none, none⟩
    | _ => ⟨none, none⟩

/-- `syncRecord`; `fresh` is the id of a record that is created. -/
def syncRecord (faults : Faults) (records : Table Id Record) (fresh : Id) (body : Record)
    (recordId : Option Id) : Answer :=
  match known faults.read records body recordId with
  | some id => answer faults.write id
  | none =>
    if faults.list then ⟨none, none⟩ else byList faults.write (named records body) fresh body

inductive Status
  | none
  | synced
  | error
deriving DecidableEq

/-- What a sync is at: the domains still to do, or the entries of the old list still to look at.
`made`: the records written in this sync that the stored list does not have. -/
inductive Phase
  | idle
  | syncing (req : Request) (todo : List (String × String)) (records : Records) (made : List Id)
  | removing (req : Request) (todo : List (Key × Entry)) (done : List Id) (failed records : Records)

/-- `ours`: the records that were created or adopted for the host. -/
structure State where
  cloud : Cloud
  records : Records
  status : Status
  ours : List Id
  phase : Phase

namespace State

variable (s : State)

/-- The head of `syncProxyHost`. -/
def sync (req : Request) : State :=
  if req.enabled then
    if req.token && req.addresses ≠ [] then { s with phase := .syncing req req.pairs .empty [] }
    else { s with status := .error }
  else if s.records.entries = [] then s
  else if req.token then { s with phase := .removing req s.records.entries [] .empty .empty }
  else { s with status := .error }

def setRecords (records : Table Id Record) : State := { s with cloud := { s.cloud with records } }

/-- One domain and address: the record that is written, and the entry for the list if nothing fails.
-/
def record (faults : Faults) (fresh : Id) (req : Request) (p : String × String) :
    Option (Id × Record) × Option Entry :=
  match if faults.zone then none else findZone s.cloud p.1 with
  | none => (none, none)
  | some zone =>
    let body : Record := ⟨zone.id, p.1, recordType p.2, p.2, req.proxied, managedComment⟩
    let answer :=
      syncRecord faults s.cloud.records fresh body
        ((s.records.get? (p.1, recordType p.2)).map Entry.id)
    (answer.written.map (·, body), answer.id.map (⟨·, zone.name⟩))

/-- The record that is written becomes one of the host's. -/
def write : Option (Id × Record) → State
  | none => s
  | some (id, r) => { s.setRecords (s.cloud.records.set id r) with ours := id :: s.ours }

def madeAfter (made : List Id) : Option (Id × Record) → List Id
  | none => made
  | some (id, _) => if id ∈ ids s.records then made else id :: made

/-- A domain of the sync; the first that fails ends it, and the list is not written. -/
def domain (faults : Faults) (fresh : Id) (req : Request) (p : String × String)
    (todo : List (String × String))
    (records : Records) (made : List Id) : State :=
  let written := (s.record faults fresh req p).1
  match (s.record faults fresh req p).2 with
  | none => { s.write written with status := .error, phase := .idle }
  | some e =>
    { s.write written with
      phase := .syncing req todo (records.set (p.1, recordType p.2) e) (s.madeAfter made written) }

/-- `if (entry.zone) zoneByName(…)` -/
def zoneOf (e : Entry) : Option Zone := if e.zone = "" then none else s.cloud.zones e.zone

/-- What is done about an entry: whether its record is deleted, and whether it is kept in the list
as failed. -/
structure Removal where
  deleted : Bool
  failed : Bool

/-- The body of the loop in `removeRecords`, for an id that is not done. -/
def removal (faults : Faults) (req : Request) (e : Entry) : Removal :=
  if faults.zone then ⟨false, true⟩
  else
    let existing := (s.zoneOf e).bind fun zone =>
      (if faults.read then none else s.cloud.records.get? e.id).filter fun r => r.zone = zone.id
    match existing with
    | none => ⟨false, false⟩
    | some r =>
      if r.comment ≠ managedComment ∨ lower r.name ∈ req.keepNames then ⟨false, false⟩
      else ⟨faults.write ≠ .failed, faults.write ≠ .done⟩

/-- An entry in `removeRecords`. -/
def entry (faults : Faults) (req : Request) (key : Key) (e : Entry) (todo : List (Key × Entry))
    (done : List Id)
    (failed records : Records) : State :=
  if e.id ∈ done then { s with phase := .removing req todo done failed records }
  else
    let result := s.removal faults req e
    { s.setRecords (if result.deleted then s.cloud.records.erase e.id else s.cloud.records) with
      phase :=
        .removing req todo (e.id :: done) (if result.failed then failed.set key e else failed)
          records }

/-- `{ ...failed, ...records }` and the status. -/
def finish (req : Request) (failed records : Records) : State :=
  { s with
    records := records.entries.foldl (fun t p => t.set p.1 p.2) failed
    status := if req.enabled then .synced else if failed.entries = [] then .none else .error
    phase := .idle }

end State

inductive Act
  | sync (req : Request)
  | domain (faults : Faults) (fresh : Id)
  | sweep
  | entry (faults : Faults)
  | finish
  /-- others change what is at Cloudflare -/
  | others (cloud : Cloud)

/-- Cloudflare gives no id twice, and others leave the records of the host as they are or delete
them. -/
def step (s : State) (a : Act) : Option State :=
  match a, s.phase with
  | .sync req, .idle => some (s.sync req)
  | .domain faults fresh, .syncing req (p :: todo) records made =>
    if fresh ∉ s.cloud.records.keys ∧ fresh ∉ s.ours then
      some (s.domain faults fresh req p todo records made) else none
  | .sweep, .syncing req [] records _ =>
    some { s with phase := .removing req s.records.entries (ids records) .empty records }
  | .entry faults, .removing req ((key, e) :: todo) done failed records =>
    some (s.entry faults req key e todo done failed records)
  | .finish, .removing req [] _ failed records => some (s.finish req failed records)
  | .others cloud, _ =>
    if ∀ id ∈ s.ours, cloud.records.get? id = s.cloud.records.get? id ∨
      cloud.records.get? id = none then
      some { s with cloud }
    else none
  | _, _ => none

/-- A host without records of its own at Cloudflare. -/
def initial (cloud : Cloud) (records : Records) : State := ⟨cloud, records, .none, [], .idle⟩

abbrev Step (s : State) (a : Act) (t : State) : Prop := step s a = some t

/-! What a sync is to keep. -/

/-- Each record of the host that exists is in the stored list. -/
def Tracked (s : State) : Prop := ∀ id ∈ s.ours, id ∈ s.cloud.records.keys → id ∈ ids s.records

/-- The only record of its name and type, with the address that is wanted. -/
def Alone (s : State) (id : Id) (r : Record) : Prop := ∃ req p todo records made,
  s.phase = .syncing req (p :: todo) records made ∧ lower r.name = lower p.1 ∧
    r.type = recordType p.2 ∧ r.content = p.2 ∧
    ∀ id' r', s.cloud.records.get? id' = some r' → r'.zone = r.zone → r'.type = r.type →
      lower r'.name = lower r.name → id' = id

/-- Others leave a record as it is, and no domain finds it alone. -/
def Leaves (id : Id) (r : Record) (s : State) : Act → Prop
  | .others cloud => cloud.records.get? id = some r
  | .domain .. => ¬ Alone s id r
  | _ => True

/-- The record of an entry is found, and no wanted domain has its name. -/
def Removable (s : State) (faults : Faults) (req : Request) (e : Entry) (r : Record) : Prop :=
  faults.read = false ∧ lower r.name ∉ req.keepNames ∧ ∃ zone, s.zoneOf e = some zone ∧
    zone.id = r.zone

/-- A domain fails only as long as the sync has neither created nor adopted a record that the list
lacks. An own record in the old list that the new one lacks is under no key of the new one, and its
lookup fails or it can be removed. -/
def Clean (s : State) : Act → Prop
  | .domain faults fresh =>
    ∀ req p todo records made, s.phase = .syncing req (p :: todo) records made →
      (s.record faults fresh req p).2 = none → s.madeAfter made (s.record faults fresh req p).1 = []
  | .entry faults =>
    ∀ req key e todo done failed records, s.phase = .removing req ((key, e) :: todo) done failed
      records →
      e.id ∉ done → e.id ∈ s.ours → ∀ r, s.cloud.records.get? e.id = some r →
        key ∉ records.keys ∧ (faults.zone = true ∨ Removable s faults req e r)
  | _ => True

variable {s t : State} {a : Act} {xs : List Act} {id fresh : Id} {r : Record} {faults : Faults}
  {req : Request} {e : Entry}
  {key : Key} {p : String × String} {todo : List (String × String)} {records failed : Records}
    {made done : List Id}

/-! `syncRecord`: what it writes, and what it says it wrote. -/

section SyncRecord
variable {cloud : Table Id Record} {body : Record} {recordId : Option Id}

theorem byList_cases {found : List (Id × Record)} {write : Write} :
    (byList write found fresh body).written = none ∨
    ∃ id, byList write found fresh body = answer write id ∧
    (id = fresh ∨ ∃ r, found = [(id, r)] ∧ r.content = body.content) := by
  cases hfind : found.find? fun p => p.2.content = body.content && p.2.proxied = body.proxied with
  | some p =>
    left
    unfold byList
    rw [hfind]
  | none =>
    match found with
    | [] => exact .inr ⟨fresh, rfl, .inl rfl⟩
    | [p] =>
      by_cases hcontent : p.2.content = body.content
      · refine .inr ⟨p.1, ?_, .inr ⟨p.2, rfl, hcontent⟩⟩
        simp only [byList, hfind, if_pos hcontent]
      · left
        simp only [byList, hfind, if_neg hcontent]
    | _ :: _ :: _ =>
      left
      simp only [byList, hfind]

/-- Nothing is written, or one record: that of the stored id, a new one, or the only one of the
name, which has the address. -/
theorem syncRecord_cases : (syncRecord faults cloud fresh body recordId).written = none ∨
    ∃ id, syncRecord faults cloud fresh body recordId = answer faults.write id ∧
      (known faults.read cloud body recordId = some id ∨ id = fresh ∨
        ∃ r, named cloud body = [(id, r)] ∧ r.content = body.content) := by
  rw [syncRecord]
  cases hknown : known faults.read cloud body recordId with
  | some id => exact .inr ⟨id, rfl, .inl rfl⟩
  | none =>
    by_cases hlist : faults.list = true
    · left
      simp only [hlist, if_true]
    · simp only [if_neg hlist]
      exact byList_cases.imp_right fun ⟨id, heq, hcase⟩ => ⟨id, heq, .inr hcase⟩

theorem syncRecord_written (h : (syncRecord faults cloud fresh body recordId).id = some id) :
    (syncRecord faults cloud fresh body recordId).written = none ∨
      (syncRecord faults cloud fresh body recordId).written = some id := by
  rcases @syncRecord_cases fresh faults cloud body recordId with
    hnone | ⟨id', heq, -⟩
  · exact .inl hnone
  · right
    rw [heq] at h ⊢
    cases hw : faults.write with
    | done =>
      rw [hw] at h
      exact h
    | failed =>
      rw [hw] at h
      cases h
    | lost =>
      rw [hw] at h
      cases h

theorem known_spec (h : known faults.read cloud body recordId = some id) :
    ∃ r, cloud.get? id = some r ∧ r.comment = managedComment := by
  obtain ⟨-, hok⟩ := Option.filter_eq_some_iff.mp h
  simp only [Bool.and_eq_true] at hok
  obtain ⟨r, hr, hok⟩ := (Option.any_eq_true ..).mp hok.2
  simp only [Bool.and_eq_true, decide_eq_true_eq] at hok
  exact ⟨r, hr, hok.1.1.2⟩

/-- What is written over is managed, or the only record of its name and type, with the address. -/
theorem written_cases (hfresh : fresh ∉ cloud.keys)
    (h : (syncRecord faults cloud fresh body recordId).written = some id)
    (hr : cloud.get? id = some r) :
    r.comment = managedComment ∨ named cloud body = [(id, r)] ∧ r.content = body.content := by
  rcases @syncRecord_cases fresh faults cloud body recordId with
    hnone | ⟨id', heq, hcase⟩
  · rw [hnone] at h
    cases h
  · have hid : id' = id := by
      rw [heq, answer] at h
      split at h
      · cases h
      · exact Option.some.inj h
    subst hid
    rcases hcase with hknown | rfl | ⟨r', hnamed, hcontent⟩
    · obtain ⟨r', hr', hcomment⟩ := known_spec hknown
      obtain rfl := Option.some.inj (hr.symm.trans hr')
      exact .inl hcomment
    · exact absurd (Table.mem_keys.mpr ⟨r, hr⟩) hfresh
    · have hmem : (id', r') ∈ named cloud body := by simp [hnamed]
      have hget := Table.get?_of_mem (List.mem_filter.mp hmem).1
      obtain rfl := Option.some.inj (hr.symm.trans hget)
      exact .inr ⟨hnamed, hcontent⟩

/-- The only record of the name is alone. -/
theorem eq_of_named (h : named cloud body = [(id, r)]) :
    r.type = body.type ∧ lower r.name = lower body.name ∧
    ∀ id' r', cloud.get? id' = some r' → r'.zone = r.zone → r'.type = r.type →
    lower r'.name = lower r.name → id' = id := by
  have hmem : (id, r) ∈ named cloud body := by simp [h]
  obtain ⟨-, hok⟩ := List.mem_filter.mp hmem
  simp only [Bool.and_eq_true, decide_eq_true_eq] at hok
  refine ⟨hok.1.2, hok.2, fun id' r' hr' hzone htype hname => ?_⟩
  have hmem' : (id', r') ∈ named cloud body := by
    refine List.mem_filter.mpr ⟨Table.mem_entries_iff.mpr hr', ?_⟩
    simp only [Bool.and_eq_true, decide_eq_true_eq]
    exact ⟨⟨hzone.trans hok.1.1, htype.trans hok.1.2⟩, hname.trans hok.2⟩
  rw [h] at hmem'
  exact congrArg Prod.fst (List.mem_singleton.mp hmem')

end SyncRecord

/-! A record that is not the program's. -/

theorem get?_write (w : Option (Id × Record)) : (s.write w).cloud.records.get? id =
    match w with
    | none => s.cloud.records.get? id
    | some (id', r) => if id = id' then some r else s.cloud.records.get? id := by
  cases w with
  | none => rfl
  | some p => exact Table.get?_set

theorem record_cases : s.record faults fresh req p = (none, none) ∨ ∃ zone : Zone, ∃ body : Record,
    body.zone = zone.id ∧ body.name = p.1 ∧ body.type = recordType p.2 ∧ body.content = p.2 ∧
    body.comment = managedComment ∧
      ∃ recordId, s.record faults fresh req p =
        ((syncRecord faults s.cloud.records fresh body recordId).written.map (·, body),
          (syncRecord faults s.cloud.records fresh body recordId).id.map (⟨·, zone.name⟩)) := by
  rw [State.record]
  split
  · exact .inl rfl
  · next zone _ =>
    exact .inr ⟨zone, ⟨zone.id, p.1, recordType p.2, p.2, req.proxied, managedComment⟩, rfl, rfl,
      rfl, rfl, rfl, _, rfl⟩

theorem record_foreign {r' : Record} (hfresh : fresh ∉ s.cloud.records.keys)
    (hp : s.phase = .syncing req (p :: todo) records made)
    (hw : (s.record faults fresh req p).1 = some (id, r')) (hr : s.cloud.records.get? id = some r) :
    r.comment = managedComment ∨ Alone s id r := by
  rcases @record_cases s fresh faults req p with
    hnone | ⟨zone, body, hzone, hname, htype, hcontent, -, recordId, heq⟩
  · rw [hnone] at hw
    cases hw
  · rw [heq] at hw
    obtain ⟨id', hid', he⟩ := Option.map_eq_some_iff.mp hw
    cases he
    refine (written_cases hfresh hid' hr).imp_right fun ⟨hnamed, hsame⟩ => ?_
    obtain ⟨htype', hname', honly⟩ := eq_of_named hnamed
    exact ⟨req, p, todo, records, made, hp, hname'.trans (congrArg lower hname), htype'.trans htype,
      hsame.trans hcontent, honly⟩

theorem records_domain : (s.domain faults fresh req p todo records made).cloud.records =
    (s.write (s.record faults fresh req p).1).cloud.records := by
  simp only [State.domain]
  split <;> rfl

theorem comment_of_deleted (h : (s.removal faults req e).deleted = true) :
    ∃ r, s.cloud.records.get? e.id = some r ∧ r.comment = managedComment := by
  simp only [State.removal] at h
  split at h
  · cases h
  · split at h
    · cases h
    · next r hr =>
      split at h
      · cases h
      · next hkeep =>
        obtain ⟨zone, -, hfilter⟩ := Option.bind_eq_some_iff.mp hr
        obtain ⟨hget, -⟩ := Option.filter_eq_some_iff.mp hfilter
        split at hget
        · cases hget
        · exact ⟨r, hget, not_not.mp (not_or.mp hkeep).1⟩

theorem step_foreign (hs : Step s a t) (hok : Leaves id r s a)
    (hforeign : r.comment ≠ managedComment)
    (hr : s.cloud.records.get? id = some r) : t.cloud.records.get? id = some r := by
  simp only [Step, step] at hs
  split at hs
  · next req hphase =>
    cases hs
    rw [State.sync]
    split
    · split <;> exact hr
    · split
      · exact hr
      · split <;> exact hr
  · next faults fresh req p todo records made hphase =>
    split at hs
    · next hfresh =>
      cases hs
      rw [records_domain, get?_write]
      split
      · exact hr
      · next id' r' hw =>
        split
        · next he =>
          subst he
          exact ((record_foreign hfresh.1 hphase hw hr).elim hforeign hok).elim
        · exact hr
    · cases hs
  · cases hs
    exact hr
  · next faults req key e todo done failed records hphase =>
    cases hs
    rw [State.entry]
    split
    · exact hr
    · change Table.get? (if (s.removal faults req e).deleted = true then s.cloud.records.erase e.id
        else s.cloud.records) id = some r
      split
      · next hdeleted =>
        obtain ⟨r', hr', hcomment⟩ := comment_of_deleted hdeleted
        rw [Table.get?_erase, if_neg, hr]
        rintro rfl
        obtain rfl := Option.some.inj (hr.symm.trans hr')
        exact hforeign hcomment
      · exact hr
  · cases hs
    exact hr
  · split at hs
    · cases hs
      exact hok
    · cases hs
  · cases hs

/-- A record without the comment of the program is neither changed nor deleted by any number of
syncs, as long as others leave it and it is never the only record of a wanted name and type with the
wanted address. -/
theorem foreign_kept (h : Run (Guarded Step (Leaves id r)) s xs t)
    (hforeign : r.comment ≠ managedComment)
    (hr : s.cloud.records.get? id = some r) : t.cloud.records.get? id = some r := by
  refine h.guarded_invariant (I := fun u : State => u.cloud.records.get? id = some r) ?_ hr
  intro u a v hs hok hu
  exact step_foreign hs hok hforeign hu

/-! A zone with a record of someone else, and the sync of a host of the same name. -/

def zoneId : Id := ⟨"0123456789abcdef0123456789abcdef", by decide⟩

def foreignId : Id := ⟨"11111111111111111111111111111111", by decide⟩

def newId : Id := ⟨"22222222222222222222222222222222", by decide⟩

def foreignRecord : Record := ⟨zoneId, "example.com", "A", "198.51.100.1", false, ""⟩

def sampleCloud (records : Table Id Record) : Cloud where
  zones name := if name = "example.com" then some ⟨zoneId, name⟩ else none
  records := records

def sampleRequest : Request where
  domains := ["example.com"]
  addresses := ["192.0.2.1"]
  enabled := true
  proxied := false
  token := true
  unique := by decide
  families := by decide

def noFaults : Faults := ⟨false, false, false, .done⟩

theorem foreign_kept_sample : ∃ t, Run (Guarded Step (Leaves foreignId foreignRecord))
    (initial (sampleCloud (Table.empty.set foreignId foreignRecord)) .empty)
    [.sync sampleRequest, .domain noFaults newId] t ∧
      t.cloud.records.get? foreignId = some foreignRecord := by
  have hrun : ∃ t, Run (Guarded Step (Leaves foreignId foreignRecord))
      (initial (sampleCloud (Table.empty.set foreignId foreignRecord)) .empty) [.sync sampleRequest,
        .domain noFaults newId] t := by
    refine ⟨_, .cons ⟨rfl, trivial⟩ (.cons ⟨rfl, ?_⟩ (.nil _))⟩
    rintro ⟨req, p, todo, records, made, hphase, -, -, hcontent, -⟩
    cases hphase
    exact absurd hcontent (by decide)
  obtain ⟨t, ht⟩ := hrun
  exact ⟨t, ht, foreign_kept ht (by decide) (by decide)⟩

/-! No record of the host is forgotten. -/

def keyOf (p : String × String) : Key := (p.1, recordType p.2)

theorem nodup_pairs (req : Request) : (req.pairs.map keyOf).Nodup := by
  have hproduct : req.pairs.map keyOf = req.named ×ˢ req.addresses.map recordType := by
    rw [Request.pairs, List.map_flatMap]
    refine List.flatMap_congr fun d _ => ?_
    rw [List.map_map, List.map_map]
    rfl
  rw [hproduct]
  exact (req.unique.filter _).product req.families

/-- A record of the host that exists. -/
def Present (s : State) (id : Id) : Prop := id ∈ s.ours ∧ id ∈ s.cloud.records.keys

/-- Where each record of the host is listed, in the middle of a sync as well. -/
def Listed (s : State) : Prop :=
  match s.phase with
  | .idle => ∀ id, Present s id → id ∈ ids s.records
  | .syncing _ todo records made =>
    (∀ id, Present s id → id ∈ ids s.records ∨ id ∈ made) ∧ (∀ id ∈ made, id ∈ ids records) ∧
      (records.keys ++ todo.map keyOf).Nodup
  | .removing _ todo done failed records => (∀ id, Present s id → id ∈ ids records ∨
      (∃ q ∈ failed.entries, q.2.id = id ∧ q.1 ∉ records.keys) ∨ ∃ q ∈ todo, q.2.id = id ∧
        id ∉ done) ∧
      (failed.keys ++ todo.map Prod.fst).Nodup

structure Inv (s : State) : Prop where
  marked : ∀ id ∈ s.ours, ∀ r, s.cloud.records.get? id = some r → r.comment = managedComment
  listed : Listed s

theorem mem_ids : id ∈ ids records ↔ ∃ q ∈ records.entries, q.2.id = id := by
  simp [ids, Table.values]

theorem entries_set_new {e' : Entry} (h : key ∉ records.keys) :
    (records.set key e').entries = records.entries ++ [(key, e')] :=
  Table.entries_set_of_notMem h

theorem keys_set_new (h : key ∉ records.keys) :
    (records.set key e).keys = records.keys ++ [key] := by
  rw [Table.keys, entries_set_new h, List.map_append]
  rfl

theorem ids_set_new (h : key ∉ records.keys) : ids (records.set key e) = ids records ++ [e.id] := by
  rw [ids, Table.values, entries_set_new h, List.map_append, List.map_append]
  rfl

theorem present_write {w : Option (Id × Record)} (h : Present (s.write w) id) :
    Present s id ∨ ∃ r, w = some (id, r) := by
  cases w with
  | none => exact .inl h
  | some p =>
    obtain ⟨hours, hkeys⟩ := h
    rcases List.mem_cons.mp hours with rfl | hours
    · exact .inr ⟨p.2, rfl⟩
    · by_cases he : id = p.1
      · exact .inr ⟨p.2, he ▸ rfl⟩
      · left
        obtain ⟨r, hr⟩ := Table.mem_keys.mp hkeys
        rw [get?_write] at hr
        simp only [if_neg he] at hr
        exact ⟨hours, Table.mem_keys.mpr ⟨r, hr⟩⟩

theorem records_write {w : Option (Id × Record)} : (s.write w).records = s.records := by
  cases w <;> rfl

theorem madeAfter_subset {w : Option (Id × Record)} : made ⊆ s.madeAfter made w := by
  intro id hid
  cases w with
  | none => exact hid
  | some p =>
    simp only [State.madeAfter]
    split
    · exact hid
    · exact List.mem_cons_of_mem _ hid

theorem mem_madeAfter {r : Record} : id ∈ ids s.records ∨ id ∈ s.madeAfter made (some (id, r)) := by
  by_cases h : id ∈ ids s.records
  · exact .inl h
  · right
    simp only [State.madeAfter, if_neg h]
    exact List.mem_cons_self

theorem of_mem_madeAfter {w : Option (Id × Record)} (h : id ∈ s.madeAfter made w) :
    id ∈ made ∨ ∃ r, w = some (id, r) := by
  cases w with
  | none => exact .inl h
  | some p =>
    simp only [State.madeAfter] at h
    split at h
    · exact .inl h
    · rcases List.mem_cons.mp h with rfl | h
      · exact .inr ⟨p.2, rfl⟩
      · exact .inl h

theorem record_entry {id : Id} {r : Record} (he : (s.record faults fresh req p).2 = some e)
    (hw : (s.record faults fresh req p).1 = some (id, r)) : e.id = id := by
  rcases @record_cases s fresh faults req p with
    hnone | ⟨zone, body, -, -, -, -, -, recordId, heq⟩
  · rw [hnone] at hw
    cases hw
  · rw [heq] at he hw
    obtain ⟨id₁, hid₁, rfl⟩ := Option.map_eq_some_iff.mp he
    obtain ⟨id₂, hid₂, hpair⟩ := Option.map_eq_some_iff.mp hw
    cases hpair
    rcases syncRecord_written hid₁ with hnone | hsome
    · rw [hnone] at hid₂
      cases hid₂
    · exact Option.some.inj (hsome.symm.trans hid₂)

theorem comment_of_record {id : Id} {r : Record}
    (hw : (s.record faults fresh req p).1 = some (id, r)) :
    r.comment = managedComment := by
  rcases @record_cases s fresh faults req p with
    hnone | ⟨zone, body, -, -, -, -, hcomment, recordId, heq⟩
  · rw [hnone] at hw
    cases hw
  · rw [heq] at hw
    obtain ⟨id', -, hpair⟩ := Option.map_eq_some_iff.mp hw
    cases hpair
    exact hcomment

theorem marked_domain (h : Inv s) : ∀ id ∈ (s.write (s.record faults fresh req p).1).ours, ∀ r,
    (s.write (s.record faults fresh req p).1).cloud.records.get? id = some r →
    r.comment = managedComment := by
  intro id hours r hr
  rw [get?_write] at hr
  cases hw : (s.record faults fresh req p).1 with
  | none =>
    rw [hw] at hours hr
    exact h.marked id hours r hr
  | some q =>
    rw [hw] at hours hr
    simp only at hr
    split at hr
    · obtain rfl := Option.some.inj hr
      exact comment_of_record hw
    · next hne =>
      have hold : id ∈ s.ours := (List.mem_cons.mp hours).resolve_left hne
      exact h.marked id hold r hr

theorem inv_domain (h : Inv s) (hphase : s.phase = .syncing req (p :: todo) records made)
    (hok : (s.record faults fresh req p).2 = none →
      s.madeAfter made (s.record faults fresh req p).1 = []) :
    Inv (s.domain faults fresh req p todo records made) := by
  have hlisted := h.listed
  simp only [Listed, hphase] at hlisted
  obtain ⟨hpresent, hmade, hnodup⟩ := hlisted
  have hmarked := @marked_domain s fresh faults req p h
  rw [List.map_cons] at hnodup
  simp only [State.domain]
  split
  · next hnone =>
    -- the list is not written, so nothing may have been made for it
    have hempty := hok hnone
    refine ⟨hmarked, ?_⟩
    intro id hid
    change id ∈ ids (s.write (s.record faults fresh req p).1).records
    rw [records_write]
    rcases present_write hid with hold | ⟨r, hw⟩
    · rcases hpresent id hold with hlist | hin
      · exact hlist
      · have hin' := madeAfter_subset (s := s) (w := (s.record faults fresh req p).1) hin
        rw [hempty] at hin'
        cases hin'
    · rw [hw] at hempty
      rcases @mem_madeAfter s id made r with hlist | hin
      · exact hlist
      · rw [hempty] at hin
        cases hin
  · next e hsome =>
    have hkey : keyOf p ∉ records.keys := by
      intro hin
      exact (List.nodup_append.mp hnodup).2.2 _ hin _ List.mem_cons_self rfl
    refine ⟨hmarked, ?_, ?_, ?_⟩
    · intro id hid
      change id ∈ ids (s.write (s.record faults fresh req p).1).records ∨ _
      rw [records_write]
      rcases present_write hid with hold | ⟨r, hw⟩
      · exact (hpresent id hold).imp_right fun hin => madeAfter_subset hin
      · rw [hw]
        exact mem_madeAfter
    · intro id hid
      change id ∈ ids (records.set (keyOf p) e)
      rw [ids_set_new hkey, List.mem_append]
      rcases of_mem_madeAfter hid with hin | ⟨r, hw⟩
      · exact .inl (hmade id hin)
      · exact .inr (List.mem_singleton.mpr (record_entry hsome hw).symm)
    · change ((records.set (keyOf p) e).keys ++ todo.map keyOf).Nodup
      rw [keys_set_new hkey, List.append_assoc]
      exact hnodup

/-- A record of the program that can be removed is removed, or stays listed as failed. -/
theorem removal_spec (hr : s.cloud.records.get? e.id = some r)
    (hcomment : r.comment = managedComment)
    (hok : faults.zone = true ∨ Removable s faults req e r) :
    (s.removal faults req e).deleted = true ∨ (s.removal faults req e).failed = true := by
  by_cases hzone : faults.zone = true
  · right
    simp only [State.removal, hzone, if_true]
  · obtain ⟨hread, hname, zone, hzoneOf, hid⟩ := hok.resolve_left hzone
    have hexisting : ((s.zoneOf e).bind fun zone =>
      (if faults.read then none else s.cloud.records.get? e.id).filter fun r =>
        r.zone = zone.id) = some r := by
      rw [hzoneOf, Option.bind_some, hread, hr]
      simp [hid]
    have hkeep : ¬ (r.comment ≠ managedComment ∨ lower r.name ∈ req.keepNames) := by
      rintro (hno | hin)
      · exact hno hcomment
      · exact hname hin
    simp only [State.removal, if_neg hzone, hexisting, if_neg hkeep]
    cases faults.write with
    | done => exact .inl rfl
    | failed => exact .inr rfl
    | lost => exact .inl rfl

theorem inv_entry {todo : List (Key × Entry)} (h : Inv s)
    (hphase : s.phase = .removing req ((key, e) :: todo) done failed records)
    (hok : e.id ∉ done → e.id ∈ s.ours → ∀ r, s.cloud.records.get? e.id = some r →
      key ∉ records.keys ∧ (faults.zone = true ∨ Removable s faults req e r)) :
    Inv (s.entry faults req key e todo done failed records) := by
  have hlisted := h.listed
  simp only [Listed, hphase] at hlisted
  obtain ⟨hpresent, hnodup⟩ := hlisted
  rw [List.map_cons] at hnodup
  rw [State.entry]
  split
  · next hdone =>
    refine ⟨h.marked, ?_, ?_⟩
    · intro id hid
      rcases hpresent id hid with hin | hin | ⟨q, hq, rfl, hno⟩
      · exact .inl hin
      · exact .inr (.inl hin)
      · rcases List.mem_cons.mp hq with rfl | hq
        · exact absurd hdone hno
        · exact .inr (.inr ⟨q, hq, rfl, hno⟩)
    · exact hnodup.sublist ((List.Sublist.refl _).append (List.sublist_cons_self _ _))
  · next hdone =>
    have hkey : key ∉ failed.keys := by
      intro hin
      exact (List.nodup_append.mp hnodup).2.2 _ hin _ List.mem_cons_self rfl
    have hold : ∀ id r, (if (s.removal faults req e).deleted = true then s.cloud.records.erase e.id
        else s.cloud.records).get? id = some r → s.cloud.records.get? id = some r ∧
          ((s.removal faults req e).deleted = true → id ≠ e.id) := by
      intro id r hr
      split at hr
      · rw [Table.get?_erase] at hr
        split at hr
        · cases hr
        · next hne => exact ⟨hr, fun _ => hne⟩
      · next hno => exact ⟨hr, fun hdeleted => absurd hdeleted hno⟩
    refine ⟨fun id hid r hr => h.marked id hid r (hold id r hr).1, ?_, ?_⟩
    · rintro id ⟨hours, hkeys⟩
      obtain ⟨r, hr⟩ := Table.mem_keys.mp hkeys
      obtain ⟨hget, hne⟩ := hold id r hr
      have hfailed : ∀ q ∈ failed.entries, q ∈
          (if (s.removal faults req e).failed = true then failed.set key e
            else failed).entries := by
        intro q hq
        split
        · rw [entries_set_new hkey]
          exact List.mem_append_left _ hq
        · exact hq
      rcases hpresent id ⟨hours, Table.mem_keys.mpr ⟨r, hget⟩⟩ with hin | ⟨q, hq, hid, hno⟩
        | ⟨q, hq, rfl, hno⟩
      · exact .inl hin
      · exact .inr (.inl ⟨q, hfailed q hq, hid, hno⟩)
      · by_cases he : q.2.id = e.id
        · -- the record of this entry: it was not deleted, so the entry is kept as failed
          rw [he] at hours hget hne
          obtain ⟨hnokey, hremovable⟩ := hok hdone hours r hget
          have hspec := removal_spec hget (h.marked _ hours r hget) hremovable
          have hkept := hspec.resolve_left fun hdeleted => hne hdeleted rfl
          refine .inr (.inl ⟨(key, e), ?_, he.symm, hnokey⟩)
          rw [if_pos hkept, entries_set_new hkey]
          exact List.mem_append_right _ (List.mem_singleton_self _)
        · refine .inr (.inr ⟨q, ?_, rfl, ?_⟩)
          · exact (List.mem_cons.mp hq).resolve_left fun hq => he (congrArg (fun q => q.2.id) hq)
          · exact List.not_mem_cons_of_ne_of_not_mem he hno
    · change ((if (s.removal faults req e).failed = true then failed.set key e else failed).keys ++
        todo.map Prod.fst).Nodup
      split
      · rw [keys_set_new hkey, List.append_assoc]
        exact hnodup
      · exact hnodup.sublist ((List.Sublist.refl _).append (List.sublist_cons_self _ _))

/-- `{ ...failed, ...records }` has every entry of the second, and those of the first with other
keys. -/
theorem mem_finish
    (hin : id ∈ ids records ∨ ∃ q ∈ failed.entries, q.2.id = id ∧ q.1 ∉ records.keys) :
    id ∈ ids (s.finish req failed records).records := by
  let f (t : Records) (q : Key × Entry) : Records := t.set q.1 q.2
  let g (q : Key × Entry) (_ : Option Entry) : Option Entry := some q.2
  have hset : ∀ t q k, (f t q).get? k = if k = q.1 then g q (t.get? k) else t.get? k :=
    fun t q k => Table.get?_set
  have hget : ∀ q : Key × Entry, (s.finish req failed records).records.get? q.1 = some q.2 →
      q.2.id ∈ ids (s.finish req failed records).records := by
    intro q hq
    exact mem_ids.mpr ⟨q, Table.mem_entries_iff.mpr hq, rfl⟩
  rcases hin with hin | ⟨q, hq, rfl, hno⟩
  · obtain ⟨q, hq, rfl⟩ := mem_ids.mp hin
    exact hget q (Table.get?_foldl_of_mem Prod.fst hset records.nodup hq)
  · refine hget q ?_
    rw [State.finish, Table.get?_foldl_of_notMem Prod.fst hset hno]
    exact Table.get?_of_mem hq

theorem inv_sync (h : Inv s) (hphase : s.phase = .idle) : Inv (s.sync req) := by
  have hlisted := h.listed
  simp only [Listed, hphase] at hlisted
  have hidle : Inv { s with status := .error } := by
    refine ⟨h.marked, ?_⟩
    simp only [Listed, hphase]
    exact hlisted
  rw [State.sync]
  split
  · split
    · refine ⟨h.marked, fun id hid => .inl (hlisted id hid), ?_, nodup_pairs req⟩
      intro id hid
      cases hid
    · exact hidle
  · split
    · exact h
    · split
      · refine ⟨h.marked, ?_, s.records.nodup⟩
        intro id hid
        obtain ⟨q, hq, hqid⟩ := mem_ids.mp (hlisted id hid)
        exact .inr (.inr ⟨q, hq, hqid, List.not_mem_nil⟩)
      · exact hidle

theorem step_inv (hs : Step s a t) (hok : Clean s a) (h : Inv s) : Inv t := by
  have hlisted := h.listed
  simp only [Step, step] at hs
  split at hs
  · next req hphase =>
    cases hs
    exact inv_sync h hphase
  · next faults fresh req p todo records made hphase =>
    split at hs
    · cases hs
      exact inv_domain h hphase (hok req p todo records made hphase)
    · cases hs
  · next req records made hphase =>
    cases hs
    simp only [Listed, hphase] at hlisted
    obtain ⟨hpresent, hmade, -⟩ := hlisted
    refine ⟨h.marked, ?_, s.records.nodup⟩
    intro id hid
    by_cases hin : id ∈ ids records
    · exact .inl hin
    · rcases hpresent id hid with hold | hnew
      · obtain ⟨q, hq, hqid⟩ := mem_ids.mp hold
        exact .inr (.inr ⟨q, hq, hqid, hin⟩)
      · exact absurd (hmade id hnew) hin
  · next faults req key e todo done failed records hphase =>
    cases hs
    exact inv_entry h hphase (hok req key e todo done failed records hphase)
  · next req done failed records hphase =>
    cases hs
    simp only [Listed, hphase] at hlisted
    refine ⟨h.marked, ?_⟩
    intro id hid
    apply mem_finish
    rcases hlisted.1 id hid with hin | hin | ⟨q, hq, -⟩
    · exact .inl hin
    · exact .inr hin
    · cases hq
  · next _ cloud =>
    split at hs
    · next hothers =>
      cases hs
      have hsame : ∀ id ∈ s.ours, ∀ r, cloud.records.get? id = some r →
          s.cloud.records.get? id = some r := by
        intro id hours r hr
        rcases hothers id hours with heq | hnone
        · exact heq ▸ hr
        · rw [hr] at hnone
          cases hnone
      have hpresent : ∀ id, Present { s with cloud } id → Present s id := by
        rintro id ⟨hours, hkeys⟩
        obtain ⟨r, hr⟩ := Table.mem_keys.mp hkeys
        exact ⟨hours, Table.mem_keys.mpr ⟨r, hsame id hours r hr⟩⟩
      refine ⟨fun id hid r hr => h.marked id hid r (hsame id hid r hr), ?_⟩
      rw [Listed] at hlisted ⊢
      cases hphase : s.phase with
      | idle =>
        simp only [hphase] at hlisted ⊢
        exact fun id hid => hlisted id (hpresent id hid)
      | syncing req todo records made =>
        simp only [hphase] at hlisted ⊢
        exact ⟨fun id hid => hlisted.1 id (hpresent id hid), hlisted.2⟩
      | removing req todo done failed records =>
        simp only [hphase] at hlisted ⊢
        exact ⟨fun id hid => hlisted.1 id (hpresent id hid), hlisted.2⟩
    · cases hs
  · cases hs

/-- Over any number of syncs with calls that fail, whatever others do with records of their own and
whichever of the host's they delete: between two syncs the stored list has every record of the host
that is still there, so that it can be removed. -/
theorem tracked_of_clean {cloud : Cloud} (h : Run (Guarded Step Clean) (initial cloud records) xs s)
    (hphase : s.phase = .idle) :
    Tracked s := by
  have hinitial : Inv (initial cloud records) := by
    refine ⟨?_, ?_⟩
    · intro id hid
      cases hid
    · intro id hid
      cases hid.1
  have hinv : Inv s := by
    refine h.guarded_invariant (I := Inv) ?_ hinitial
    intro u a v hs hok hi
    exact step_inv hs hok hi
  have hlisted := hinv.listed
  simp only [Listed, hphase] at hlisted
  exact fun id hours hkeys => hlisted id ⟨hours, hkeys⟩

def staleId : Id := ⟨"33333333333333333333333333333333", by decide⟩

def staleEntry : Entry := ⟨staleId, "example.com"⟩

/-- A sync that creates a record and cleans up an entry whose record is gone; then the host is
disabled, the lookup of the zone fails, and the record stays in the list. -/
def sampleSync : List Act :=
  [.sync sampleRequest, .domain noFaults newId, .sweep, .entry noFaults, .finish,
    .sync { sampleRequest with enabled := false }, .entry { noFaults with zone := true }, .finish]

def sampleStart : State :=
  initial (sampleCloud .empty) (Table.empty.set ("old.example.com", "A") staleEntry)

theorem tracked_sampleSync :
    ∃ s, Run (Guarded Step Clean) sampleStart sampleSync s ∧ s.phase = .idle ∧
    s.ours = [newId] ∧ ids s.records = [newId] ∧ Tracked s := by
  have hrun : ∃ s, Run (Guarded Step Clean) sampleStart sampleSync s ∧ s.phase = .idle ∧
    s.ours = [newId] ∧
      ids s.records = [newId] := by
    refine ⟨_,
      .cons ⟨rfl, trivial⟩
        (.cons ⟨rfl, ?domain⟩ (.cons ⟨rfl, trivial⟩ (.cons ⟨rfl, ?stale⟩ (.cons ⟨rfl, trivial⟩
      (.cons ⟨rfl, trivial⟩ (.cons ⟨rfl, ?failed⟩ (.cons ⟨rfl, trivial⟩ (.nil _)))))))), rfl, rfl,
        rfl⟩
    case domain =>
      intro req p todo records made hphase hnone
      cases hphase
      cases hnone
    case stale =>
      intro req key e todo done failed records hphase _ hours
      cases hphase
      exact absurd hours (by decide)
    case failed =>
      intro req key e todo done failed records hphase _ _ r _
      cases hphase
      exact ⟨by decide, .inl rfl⟩
  obtain ⟨s, hs, hphase, hours, hids⟩ := hrun
  exact ⟨s, hs, hphase, hours, hids, tracked_of_clean hs hphase⟩

end FloppyGuard.Hosts.CloudflareRecords
