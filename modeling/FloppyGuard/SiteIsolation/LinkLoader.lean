import FloppyGuard.SiteIsolation.Copies

/-! `createLinkLoader` of `site-isolation.js` and the backend process around the applier. -/
namespace FloppyGuard.SiteIsolation

/-- A metadata entry; a missing name is empty, missing networks are none. -/
structure MetaLink where
  name : String
  type : Option LinkType
  importedNetworks : List String

/-- `metadata.links` is an object, so its keys differ. -/
structure MetadataStore where
  links : List (String × MetaLink)
  nodup : (links.map Prod.fst).Nodup

namespace MetadataStore

def keys (metadata : MetadataStore) : List String := metadata.links.map Prod.fst

end MetadataStore

structure LiveLink where
  id : String
  name : String
  type : Option LinkType
  importedNetworks : List String
  tunnelAddresses : List String
  active : Bool

/-- The part of a live record the loader remembers. -/
structure LiveView where
  type : Option LinkType
  importedNetworks : List String
  tunnelAddresses : List String

def LiveView.blank : LiveView := ⟨none, [], []⟩

def LiveLink.view (l : LiveLink) : LiveView := ⟨l.type, l.importedNetworks, l.tunnelAddresses⟩

/-- What `getStatus` does: it throws, says `available: false`, or lists links. -/
inductive Status
  | failed
  | unavailable
  | available (links : List LiveLink)

namespace Status

def links : Status → List LiveLink
  | available links => links
  | failed | unavailable => []

/-- `new Map(links.map((l) => [l.id, l])).get(id)`. -/
def record (s : Status) (id : String) : Option LiveLink := s.links.reverse.find? (·.id == id)

end Status

abbrev LiveCache := String → Option LiveView

section Loader
variable (metadata : MetadataStore) (cache : LiveCache) (s : Status)

/-- `liveOf`: the live view, else the last known one. -/
def liveOf (id : String) : LiveView :=
  match s.record id with
  | some l => l.view
  | none => (cache id).getD .blank

/-- The cache after the loader has passed over every link. -/
def remember : LiveCache := fun id =>
  match s.record id with
  | some l => some l.view
  | none => cache id

def metadataLink (id : String) (m : MetaLink) : Link where
  id := id
  name := orElse m.name (orElse (((s.record id).map (·.name)).getD "") id)
  type := m.type <|> (liveOf cache s id).type
  importedNetworks :=
    if m.importedNetworks.isEmpty then (liveOf cache s id).importedNetworks else m.importedNetworks
  tunnelAddresses := (liveOf cache s id).tunnelAddresses
  active := (s.record id).any (·.active)
  live := (s.record id).isSome || (cache id).isSome

def liveLink (l : LiveLink) : Link where
  id := l.id
  name := orElse l.name l.id
  type := l.type
  importedNetworks := l.importedNetworks
  tunnelAddresses := l.tunnelAddresses
  active := l.active
  live := true

/-- A link of the status without a metadata entry. -/
def liveOnly (id : String) : Option Link :=
  if id ∈ metadata.keys then none else (s.record id).map liveLink

def loadLinks : List Link × LiveCache :=
  (metadata.links.map (fun e => metadataLink cache s e.1 e.2) ++
    (s.links.map (·.id)).eraseDups.filterMap (liveOnly metadata s), remember cache s)

end Loader

/-- One apply of the backend: `read` is the error of reading the pairs or the store. -/
structure Trigger where
  force : Bool
  read : Option String
  status : Status
  faults : Faults
  now : ℕ

/-- The process: the loader's cache and the applier with its two copies. -/
structure Backend where
  cache : LiveCache
  world : World

section Backend
variable (rt : Runtime) (path : String) (pairs : List Pair) (metadata : MetadataStore)

def Backend.input (b : Backend) (t : Trigger) : Except String Input :=
  match t.read with
  | some e => .error e
  | none => .ok ⟨pairs, (loadLinks metadata b.cache t.status).1⟩

def Backend.toApply (b : Backend) (t : Trigger) : Apply :=
  ⟨t.force, b.input pairs metadata t, t.faults, t.now⟩

def Backend.apply (b : Backend) (t : Trigger) : Result × Backend :=
  let r := applyOnce rt path (b.toApply pairs metadata t) b.world
  (r.1, ⟨if t.read.isNone then (loadLinks metadata b.cache t.status).2 else b.cache, r.2⟩)

/-- A restart forgets what the process knew; the kernel table and the boot file stay. -/
def Backend.restart (b : Backend) : Backend := ⟨fun _ => none, started b.world.kernel b.world.boot⟩

end Backend

/-! Looking a loaded link up. -/

variable {rt : Runtime} {path : String} {pairs : List Pair} {metadata : MetadataStore}
  {cache : LiveCache} {s : Status} {id : String} {links : List Link} {l : Link} {m : MetaLink}

theorem record_id {l : LiveLink} (h : s.record id = some l) : l.id = id := by
  simpa using List.find?_some h

theorem record_mem {l : LiveLink} (h : s.record id = some l) : id ∈ s.links.map (·.id) := by
  have hl : l ∈ s.links := by simpa using List.mem_of_find?_eq_some h
  exact List.mem_map.mpr ⟨l, hl, record_id h⟩

theorem mem_loadLinks : l ∈ (loadLinks metadata cache s).1 ↔
    (∃ e ∈ metadata.links, metadataLink cache s e.1 e.2 = l) ∨
      l.id ∉ metadata.keys ∧ ∃ r, s.record l.id = some r ∧ liveLink r = l := by
  simp only [loadLinks, List.mem_append, List.mem_map, List.mem_filterMap, List.mem_eraseDups]
  refine or_congr Iff.rfl ⟨?_, ?_⟩
  · rintro ⟨id, -, h⟩
    unfold liveOnly at h
    split at h
    · cases h
    · obtain ⟨r, hr, rfl⟩ := Option.map_eq_some_iff.mp h
      obtain rfl : r.id = id := record_id hr
      exact ⟨‹_›, r, hr, rfl⟩
  · rintro ⟨hk, r, hr, he⟩
    exact ⟨l.id, List.mem_map.mp (record_mem hr), by simp [liveOnly, hk, hr, he]⟩

/-- A metadata entry decides the link of its id. -/
theorem byId_loadLinks_stored (hm : (id, m) ∈ metadata.links) :
    byId (loadLinks metadata cache s).1 id = some (metadataLink cache s id m) := by
  refine byId_eq_some (mem_loadLinks.mpr (Or.inl ⟨(id, m), hm, rfl⟩)) rfl fun k hk hid => ?_
  rcases mem_loadLinks.mp hk with ⟨e, he, rfl⟩ | ⟨hn, -⟩
  · have heq : e = (id, m) := List.inj_on_of_nodup_map metadata.nodup he hm hid
    rw [heq]
  · exact absurd (List.mem_map_of_mem hm) (hid ▸ hn)

/-- Without a metadata entry the live record does. -/
theorem byId_loadLinks_live (hk : id ∉ metadata.keys) :
    byId (loadLinks metadata cache s).1 id = (s.record id).map liveLink := by
  have hmem (k : Link) (h : k ∈ (loadLinks metadata cache s).1) (hid : k.id = id) :
      ∃ r, s.record id = some r ∧ liveLink r = k := by
    rcases mem_loadLinks.mp h with ⟨e, he, rfl⟩ | ⟨-, hr⟩
    · exact absurd (hid ▸ List.mem_map_of_mem he) hk
    · exact hid ▸ hr
  cases hr : s.record id with
  | none =>
    refine byId_eq_none fun k h hid => ?_
    obtain ⟨r, hr', -⟩ := hmem k h hid
    simp [hr] at hr'
  | some r =>
    have hid : (liveLink r).id = id := record_id hr
    refine byId_eq_some (mem_loadLinks.mpr (Or.inr ⟨hid ▸ hk, r, hid ▸ hr, rfl⟩)) hid fun k h hk =>
      ?_
    obtain ⟨r', hr', rfl⟩ := hmem k h hk
    rw [Option.some.inj (hr.symm.trans hr')]

theorem present_loadLinks :
    present (loadLinks metadata cache s).1 id = true ↔ id ∈ metadata.keys ∨
    (s.record id).isSome = true := by
  simp only [present, List.any_eq_true, beq_iff_eq]
  constructor
  · rintro ⟨k, hk, rfl⟩
    rcases mem_loadLinks.mp hk with ⟨e, he, rfl⟩ | ⟨-, r, hr, -⟩
    · exact Or.inl (List.mem_map_of_mem he)
    · exact Or.inr (by simp [hr])
  · intro h
    by_cases hk : id ∈ metadata.keys
    · obtain ⟨e, he, rfl⟩ := List.mem_map.mp hk
      exact ⟨_, mem_loadLinks.mpr (Or.inl ⟨e, he, rfl⟩), rfl⟩
    · obtain ⟨r, hr⟩ := Option.isSome_iff_exists.mp (h.resolve_left hk)
      have hid : (liveLink r).id = id := record_id hr
      exact ⟨liveLink r, mem_loadLinks.mpr (Or.inr ⟨hid ▸ hk, r, hid ▸ hr, rfl⟩), hid⟩

end FloppyGuard.SiteIsolation
