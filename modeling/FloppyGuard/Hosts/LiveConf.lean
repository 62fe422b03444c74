import FloppyGuard.Hosts.LostUpdates
import FloppyGuard.Lib.Mirror
import FloppyGuard.Nginx.Accepted

/-! The live confs of the proxy hosts while hosts and access lists change and certificates are
issued. Every query is a step of its own, and so is every call that takes the config lock; `nginx
-t` accepts what is rendered. -/
namespace FloppyGuard.Hosts.LiveConf

open LostUpdates (Value Column Row Columns Meta Payload truthy isTrue sanitized patched assignMeta
  nginxEntries
  configureMeta bulkMeta writesBulk configKey syncEntries)
open Nginx (HostId Files Live live)

structure Host where
  row : Row
  isDeleted : Bool

/-- The flags of an access list. -/
structure ListFlags where
  satisfyAny : Bool
  passAuth : Bool
  isDeleted : Bool

structure Client where
  address : String
  directive : String

/-- The tables a host's relations are read from: the providers of the certificates, and the access
lists with their items (the user names) and clients. -/
structure Tables where
  certificates : ℕ → Option String
  lists : ℕ → ListFlags
  items : ℕ → List String
  clients : ℕ → List Client

inductive Relation
  | certificate
  | accessList
  | items
  | clients
deriving DecidableEq

namespace Tables

/-- One relation is read from the database. -/
def read (t db : Tables) : Relation → Tables
  | .certificate => { t with certificates := db.certificates }
  | .accessList => { t with lists := db.lists }
  | .items => { t with items := db.items }
  | .clients => { t with clients := db.clients }

end Tables

/-- What `_access.conf` gets. -/
structure ListView where
  satisfyAny : Bool
  passAuth : Bool
  items : List String
  clients : List Client

def idOf : Option Value → ℕ
  | some (.num n) => n.toNat
  | _ => 0

def certificateId (row : Row) : ℕ := idOf (row (.column .certificateId))

def accessListId (row : Row) : ℕ := idOf (row (.column .accessListId))

def isEnabled (row : Row) : Bool := truthy (row (.column .enabled))

/-- A deleted list is not found. -/
def listView (t : Tables) (id : ℕ) : Option ListView :=
  if (t.lists id).isDeleted then none
  else some ⟨(t.lists id).satisfyAny, (t.lists id).passAuth, t.items id, t.clients id⟩

/-- A Cloudflare config that is on and proxied. -/
def isProxied : Option Value → Bool
  | some (.object config) => isTrue (config "enabled") && isTrue (config "proxied")
  | _ => false

/-- What the templates read of `meta`. -/
structure ShownMeta where
  geoFilter : Bool
  proxied : Bool
deriving DecidableEq

def shownMeta (m : Meta) : ShownMeta :=
  ⟨isTrue (m "geo_filter") || isTrue (m "geoFilter"), isProxied (m "cloudflare_dns") ||
    isProxied (m "cloudflareDns")⟩

/-- What the template of a host gets. -/
structure Rendered where
  id : HostId
  enabled : Bool
  columns : Columns
  shown : ShownMeta
  certificate : Option String
  accessList : Option ListView

/-- Without an `access_list_id` the template reads no list. -/
def rendered (id : HostId) (row : Row) (t : Tables) : Rendered where
  id := id
  enabled := isEnabled row
  columns c := if c = .enabled then none else row (.column c)
  shown := shownMeta row.meta
  certificate := t.certificates (certificateId row)
  accessList := if accessListId row > 0 then listView t (accessListId row) else none

/-- The hosts there are, and the template of a host. -/
structure World where
  ids : List HostId
  nodup : ids.Nodup
  template : Rendered → String

/-- Rows with their relations, as far as they are read. -/
structure Fetch where
  ids : List HostId
  nodup : ids.Nodup
  rows : HostId → Row
  left : List Relation
  tables : Tables

def Fetch.read (f : Fetch) (db : Tables) (relation : Relation) : Fetch :=
  { f with left := f.left.erase relation, tables := f.tables.read db relation }

def Fetch.setColumn (f : Fetch) (c : Column) (v : Value) : Fetch :=
  { f with rows := fun id => (f.rows id).setColumn c v }

/-! The writes of an access list's update, one after the other. -/

structure ListItem where
  username : String
  hasPassword : Bool

structure ListPayload where
  satisfyAny : Option Bool
  passAuth : Option Bool
  items : Option (List ListItem)
  clients : Option (List Client)

inductive ListWrite
  | patch (satisfyAny passAuth : Option Bool)
  | deleteItems (keep : List String)
  | insertItem (username : String)
  | deleteClients
  | insertClient (client : Client)

def itemWrites (items : List ListItem) : List ListWrite :=
  .deleteItems ((items.filter fun i => !i.hasPassword).map ListItem.username) ::
    (items.filter ListItem.hasPassword).map fun i => .insertItem i.username

def clientWrites (clients : List Client) : List ListWrite :=
  .deleteClients :: (clients.filter (·.address ≠ "")).map .insertClient

def ListPayload.writes (p : ListPayload) : List ListWrite :=
  (if p.satisfyAny.isSome || p.passAuth.isSome then [.patch p.satisfyAny p.passAuth] else []) ++
    (p.items.map itemWrites).getD [] ++ (p.clients.map clientWrites).getD []

namespace Tables

def setList (t : Tables) (id : ℕ) (flags : ListFlags) : Tables :=
  { t with lists := Function.update t.lists id flags }

def setItems (t : Tables) (id : ℕ) (items : List String) : Tables :=
  { t with items := Function.update t.items id items }

def setClients (t : Tables) (id : ℕ) (clients : List Client) : Tables :=
  { t with clients := Function.update t.clients id clients }

def write (t : Tables) (id : ℕ) : ListWrite → Tables
  | .patch satisfyAny passAuth => t.setList id { t.lists id with
      satisfyAny := satisfyAny.getD (t.lists id).satisfyAny, passAuth :=
        passAuth.getD (t.lists id).passAuth }
  | .deleteItems keep => t.setItems id ((t.items id).filter (· ∈ keep))
  | .insertItem username => t.setItems id (t.items id ++ [username])
  | .deleteClients => t.setClients id []
  | .insertClient client => t.setClients id (t.clients id ++ [client])

end Tables

/-! The calls. -/

/-- A certificate that is being issued over HTTP. -/
structure Request where
  certificate : ℕ
  domains : List String

/-- What rows are read for. -/
inductive Goal
  | update (id : HostId)
  | enable (id : HostId)
  | relist (listId : ℕ)
  | unlist (listId : ℕ)
  | certify (request : Request)

/-- How far a certificate request is, from the stash on. -/
inductive Stage
  | stashed
  | challenged
  | reloaded
  | obtained
  | cleaned
deriving DecidableEq

inductive Call
  | updating (id : HostId) (payload : Payload) (row : Row)
  /-- `createQuickCertificate` runs as the call `c`. -/
  | awaiting (id : HostId) (payload : Payload) (row : Row) (c : ℕ)
  | patched (id : HostId)
  | loading (goal : Goal) (fetch : Fetch)
  | configuring (id : HostId) (fetch : Fetch)
  | syncing (id : HostId) (newMeta : Meta)
  | switchingOff (id : HostId) (delete : Bool)
  | removing (id : HostId)
  | relisting (listId : ℕ) (writes : List ListWrite)
  | relisted (listId : ℕ)
  | unlisting (listId : ℕ)
  | unlinking (listId : ℕ) (fetch : Fetch)
  | unlinked (fetch : Fetch)
  | issuing (request : Request)
  | requesting (request : Request) (stage : Stage) (fetch : Fetch)
  /-- the last reload of a call -/
  | reloading (request : Option Request)
  | issued (request : Request)

/-- `loaded` is what nginx has read at its last reload. -/
structure State where
  hosts : HostId → Host
  tables : Tables
  nextCertificate : ℕ
  files : Files
  loaded : Live
  calls : ℕ → Option Call

inductive Act
  | update (k : ℕ) (id : HostId) (payload : Payload)
  | request (k c : ℕ)
  | certificateOf (k : ℕ)
  | patch (k : ℕ)
  | reread (k : ℕ)
  | enable (k : ℕ) (id : HostId)
  | read (k : ℕ) (relation : Relation)
  | patchEnabled (k : ℕ)
  | skip (k : ℕ)
  | configure (k : ℕ)
  | sync (k : ℕ) (outcome : Meta)
  | switchOff (k : ℕ) (id : HostId) (delete : Bool)
  | patchOff (k : ℕ)
  | remove (k : ℕ)
  | reload (k : ℕ)
  | updateList (k listId : ℕ) (payload : ListPayload)
  | writeList (k : ℕ)
  | countHosts (k : ℕ)
  | readHosts (k : ℕ)
  | deleteList (k listId : ℕ)
  | markList (k : ℕ)
  | unlink (k : ℕ)
  | bulk (k : ℕ)
  | createCertificate (k : ℕ) (domains : List String)
  | stash (k : ℕ)
  | proceed (k : ℕ)
  | finish (k : ℕ)

namespace State

variable (s : State)

def setCall (k : ℕ) (call : Option Call) : State :=
  { s with calls := Function.update s.calls k call }

def setHost (id : HostId) (host : Host) : State :=
  { s with hosts := Function.update s.hosts id host }

def setRow (id : HostId) (row : Row) : State := s.setHost id { s.hosts id with row := row }

def setMeta (id : HostId) (m : Meta) : State := s.setRow id ((s.hosts id).row.withMeta m)

def setTables (t : Tables) : State := { s with tables := t }

def setFiles (files : Files) : State := { s with files := files }

/-- `nginx -s reload` -/
def reload : State := { s with loaded := live s.files }

def rowOf (id : HostId) : Row := (s.hosts id).row

/-- The rows of the hosts, with no relation read. -/
def fetch (ids : List HostId) (nodup : ids.Nodup) : Fetch :=
  ⟨ids, nodup, s.rowOf, [.certificate, .accessList, .items, .clients], s.tables⟩

def configure (text : String) (id : HostId) (row : Row) : State :=
  ((s.setFiles (Nginx.configured id text s.files)).reload).setMeta id
    (assignMeta row.meta (nginxEntries (configureMeta .passed)))

/-- The row of a host after `clearHostErrors`. -/
def clearedRow (f : Fetch) (id : HostId) : Row :=
  if id ∈ f.ids ∧ writesBulk (f.rows id) .passed = true then
    (s.rowOf id).withMeta (assignMeta (f.rows id).meta (nginxEntries (bulkMeta .passed)))
  else s.rowOf id

def bulk (texts : HostId → String) (f : Fetch) : State :=
  { s with
    files := Nginx.regenerated f.ids texts s.files
    hosts := fun id => { s.hosts id with row := s.clearedRow f id } }

def addCertificate : State :=
  { s with
    tables :=
      { s.tables with
        certificates := Function.update s.tables.certificates s.nextCertificate (some "letsencrypt")
          }
    nextCertificate := s.nextCertificate + 1 }

def unlink (listId : ℕ) : State :=
  { s with hosts := fun id =>
      if accessListId (s.rowOf id) = listId then
        { s.hosts id with row := (s.rowOf id).setColumn .accessListId (.num 0) }
      else s.hosts id }

end State

section World
variable (w : World) (s : State)

/-- The host is found. -/
def Exists (id : HostId) : Prop := id ∈ w.ids ∧ (s.hosts id).isDeleted = false

/-- The rows of the hosts that are found and satisfy a condition. -/
def fetchWhere (p : Row → Bool) : Fetch :=
  s.fetch (w.ids.filter fun id => !(s.hosts id).isDeleted && p (s.rowOf id)) (w.nodup.filter _)

def fetchWithList (listId : ℕ) : Fetch :=
  fetchWhere w s fun row => decide (accessListId row = listId)

def domainNames (row : Row) : List String :=
  match row (.column (.other "domain_names")) with
  | some (.array names) => names.filterMap fun
    | .str name => some name
    | _ => none
  | _ => []

def lowered (name : String) : List Char := name.toList.map Char.toLower

def getHostsWithDomains (domains : List String) : Fetch :=
  fetchWhere w s fun row => (domainNames row).any fun n => decide (lowered n ∈ domains.map lowered)

def texts (f : Fetch) (id : HostId) : String := w.template (rendered id (f.rows id) f.tables)

end World

/-- The certificate of a payload is that of the row, or one there is. -/
def certificateKnown (s : State) (payload : Payload) (row : Row) : Prop :=
  ∀ v, payload.columns .certificateId = some v → idOf (some v) = certificateId row ∨
    idOf (some v) = 0 ∨
    (s.tables.certificates (idOf (some v))).isSome = true

def withCertificate (payload : Payload) (id : ℕ) : Payload :=
  { payload with
    columns := Function.update payload.columns .certificateId (some (.num id))
    createCertificate := false }

/-- The names of the payload, else of the row. -/
def wantedNames (payload : Payload) (row : Row) : List String :=
  match payload.columns (.other "domain_names") with
  | some names => domainNames (row.setColumn (.other "domain_names") names)
  | none => domainNames row

/-- A relation is read after the one it hangs on. -/
def Fetch.ready (f : Fetch) : Relation → Prop
  | .certificate | .accessList => True
  | .items | .clients => .accessList ∉ f.left

/-- A config that is switched on is always synced. -/
def syncsAlways (m : Meta) : Bool :=
  match m (configKey m) with
  | some (.object config) => truthy (config "enabled")
  | _ => false

def Stage.next : Stage → Option Stage
  | stashed => some challenged
  | challenged => none
  | reloaded => some obtained
  | obtained => some cleaned
  | cleaned => none

/-- A call that fails is not followed. -/
inductive Step (w : World) : State → Act → State → Prop
  | update {s : State} {k : ℕ} {id : HostId} {payload : Payload} : s.calls k = none →
      Exists w s id →
    Step w s (.update k id payload)
      (s.setCall k (some (.updating id (sanitized .proxy payload (s.rowOf id)) (s.rowOf id))))
  | request {s : State} {k c : ℕ} {id : HostId} {payload : Payload} {row : Row} :
    s.calls k = some (.updating id payload row) → payload.createCertificate = true →
      s.calls c = none →
    Step w s (.request k c) (s.setCall k (some (.awaiting id payload row c)))
  | certificateOf {s : State} {k c : ℕ} {id : HostId} {payload : Payload} {row : Row}
      {r : Request} :
    s.calls k = some (.awaiting id payload row c) → s.calls c = some (.issued r) →
      r.domains = wantedNames payload row →
    Step w s (.certificateOf k)
      (s.setCall k (some (.updating id (withCertificate payload r.certificate) row)))
  | patch {s : State} {k : ℕ} {id : HostId} {payload : Payload} {row : Row} : s.calls k =
      some (.updating id payload row) →
    payload.createCertificate = false → certificateKnown s payload row →
    Step w s (.patch k) ((s.setRow id (patched payload row)).setCall k (some (.patched id)))
  | reread {s : State} {k : ℕ} {id : HostId} : s.calls k = some (.patched id) → Exists w s id →
    Step w s (.reread k)
      (s.setCall k (some (.loading (.update id) (s.fetch [id] (List.nodup_singleton id)))))
  | enable {s : State} {k : ℕ} {id : HostId} : s.calls k = none → Exists w s id →
      isEnabled (s.rowOf id) = false →
    Step w s (.enable k id)
      (s.setCall k (some (.loading (.enable id) (s.fetch [id] (List.nodup_singleton id)))))
  | read {s : State} {k : ℕ} {goal : Goal} {f : Fetch} {relation : Relation} : s.calls k =
      some (.loading goal f) →
    relation ∈ f.left → f.ready relation →
    Step w s (.read k relation) (s.setCall k (some (.loading goal (f.read s.tables relation))))
  | patchEnabled {s : State} {k : ℕ} {id : HostId} {f : Fetch} : s.calls k =
      some (.loading (.enable id) f) → f.left = [] →
    Step w s (.patchEnabled k)
      ((s.setRow id ((s.rowOf id).setColumn .enabled (.bool true))).setCall k
      (some (.configuring id (f.setColumn .enabled (.num 1)))))
  | skip {s : State} {k : ℕ} {id : HostId} {f : Fetch} : s.calls k =
      some (.loading (.update id) f) → f.left = [] →
    isEnabled (f.rows id) = false → Step w s (.skip k) (s.setCall k none)
  | configureUpdated {s : State} {k : ℕ} {id : HostId} {f : Fetch} : s.calls k =
      some (.loading (.update id) f) →
    f.left = [] → isEnabled (f.rows id) = true →
    Step w s (.configure k) ((s.configure (texts w f id) id (f.rows id)).setCall k
      (some (.syncing id (assignMeta (f.rows id).meta (nginxEntries (configureMeta .passed))))))
  | configureEnabled {s : State} {k : ℕ} {id : HostId} {f : Fetch} : s.calls k =
      some (.configuring id f) →
    Step w s (.configure k) ((s.configure (texts w f id) id (f.rows id)).setCall k none)
  | sync {s : State} {k : ℕ} {id : HostId} {m entries outcome : Meta} : s.calls k =
      some (.syncing id m) →
    syncEntries m outcome = some entries →
      Step w s (.sync k outcome) ((s.setMeta id (assignMeta m entries)).setCall k none)
  | notSynced {s : State} {k : ℕ} {id : HostId} {m : Meta} : s.calls k = some (.syncing id m) →
      syncsAlways m = false →
    Step w s (.finish k) (s.setCall k none)
  | disable {s : State} {k : ℕ} {id : HostId} : s.calls k = none → Exists w s id →
      isEnabled (s.rowOf id) = true →
    Step w s (.switchOff k id false) (s.setCall k (some (.switchingOff id false)))
  | delete {s : State} {k : ℕ} {id : HostId} : s.calls k = none → Exists w s id →
    Step w s (.switchOff k id true) (s.setCall k (some (.switchingOff id true)))
  | patchDisabled {s : State} {k : ℕ} {id : HostId} : s.calls k = some (.switchingOff id false) →
    Step w s (.patchOff k) ((s.setRow id ((s.rowOf id).setColumn .enabled (.bool false))).setCall k
      (some (.removing id)))
  | patchDeleted {s : State} {k : ℕ} {id : HostId} : s.calls k = some (.switchingOff id true) →
    Step w s (.patchOff k)
      ((s.setHost id { s.hosts id with isDeleted := true }).setCall k (some (.removing id)))
  | remove {s : State} {k : ℕ} {id : HostId} : s.calls k = some (.removing id) →
    Step w s (.remove k)
      ((s.setFiles (Nginx.deleted id s.files)).setCall k (some (.reloading none)))
  | reload {s : State} {k : ℕ} {r : Option Request} : s.calls k = some (.reloading r) →
    Step w s (.reload k) (s.reload.setCall k (r.map .issued))
  | updateList {s : State} {k listId : ℕ} {payload : ListPayload} : s.calls k = none →
    (s.tables.lists listId).isDeleted = false →
    Step w s (.updateList k listId payload) (s.setCall k (some (.relisting listId payload.writes)))
  | writeList {s : State} {k listId : ℕ} {write : ListWrite} {writes : List ListWrite} :
    s.calls k = some (.relisting listId (write :: writes)) →
    Step w s (.writeList k)
      ((s.setTables (s.tables.write listId write)).setCall k (some (.relisting listId writes)))
  | countHosts {s : State} {k listId : ℕ} : s.calls k = some (.relisting listId []) →
    Step w s (.countHosts k)
      (s.setCall k
        (some (if (fetchWithList w s listId).ids.isEmpty then .reloading none
          else .relisted listId)))
  | readRelisted {s : State} {k listId : ℕ} : s.calls k = some (.relisted listId) →
    Step w s (.readHosts k)
      (s.setCall k (some (.loading (.relist listId) (fetchWithList w s listId))))
  | bulkRelisted {s : State} {k listId : ℕ} {f : Fetch} : s.calls k =
      some (.loading (.relist listId) f) → f.left = [] →
    Step w s (.bulk k) ((s.bulk (texts w f) f).setCall k (some (.reloading none)))
  | deleteList {s : State} {k listId : ℕ} : s.calls k = none →
      (s.tables.lists listId).isDeleted = false →
    Step w s (.deleteList k listId) (s.setCall k (some (.unlisting listId)))
  | readUnlisted {s : State} {k listId : ℕ} : s.calls k = some (.unlisting listId) →
    Step w s (.readHosts k)
      (s.setCall k (some (.loading (.unlist listId) (fetchWithList w s listId))))
  | markList {s : State} {k listId : ℕ} {f : Fetch} : s.calls k =
      some (.loading (.unlist listId) f) → f.left = [] →
    Step w s (.markList k)
      ((s.setTables
        (s.tables.setList listId { s.tables.lists listId with isDeleted := true })).setCall k
      (some (.unlinking listId f)))
  -- the rows that were read get the id 0 as well, and keep the list they were read with
  | unlink {s : State} {k listId : ℕ} {f : Fetch} : s.calls k = some (.unlinking listId f) →
    Step w s (.unlink k)
      ((s.unlink listId).setCall k (some (.unlinked (f.setColumn .accessListId (.num 0)))))
  | bulkUnlinked {s : State} {k : ℕ} {f : Fetch} : s.calls k = some (.unlinked f) →
    Step w s (.bulk k) ((s.bulk (texts w f) f).setCall k (some (.reloading none)))
  | createCertificate {s : State} {k : ℕ} {domains : List String} : s.calls k = none →
    Step w s (.createCertificate k domains)
      (s.addCertificate.setCall k (some (.issuing ⟨s.nextCertificate, domains⟩)))
  | readInUse {s : State} {k : ℕ} {r : Request} : s.calls k = some (.issuing r) →
    Step w s (.readHosts k)
      (s.setCall k (some (.loading (.certify r) (getHostsWithDomains w s r.domains))))
  | stash {s : State} {k : ℕ} {r : Request} {f : Fetch} : s.calls k =
      some (.loading (.certify r) f) → f.left = [] →
    Step w s (.stash k)
      ((s.setFiles (Nginx.stashed f.ids s.files)).setCall k (some (.requesting r .stashed f)))
  | proceed {s : State} {k : ℕ} {r : Request} {stage stage' : Stage} {f : Fetch} :
    s.calls k = some (.requesting r stage f) → stage.next = some stage' →
    Step w s (.proceed k) (s.setCall k (some (.requesting r stage' f)))
  | reloadChallenge {s : State} {k : ℕ} {r : Request} {f : Fetch} : s.calls k =
      some (.requesting r .challenged f) →
    Step w s (.reload k) (s.reload.setCall k (some (.requesting r .reloaded f)))
  | bulkInUse {s : State} {k : ℕ} {r : Request} {f : Fetch} : s.calls k =
      some (.requesting r .cleaned f) →
    Step w s (.bulk k) ((s.bulk (texts w f) f).setCall k (some (.reloading (some r))))
  | issued {s : State} {k : ℕ} {r : Request} : s.calls k = some (.issued r) →
    Step w s (.finish k) (s.setCall k none)

end FloppyGuard.Hosts.LiveConf
