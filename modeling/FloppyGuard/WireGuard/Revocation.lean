import FloppyGuard.WireGuard.ConfSync
import FloppyGuard.WireGuard.RotatedOnce

/-! `deletePeer` next to any number of `generatePeerConfig` calls for the same peer: when the peer
is gone for good. -/
namespace FloppyGuard.WireGuard.Revocation

open KeyRotation (PeerId)

/-- Where `deletePeer` stands, with the id it was called with and the link it has found. -/
inductive Deletion
  | idle
  | asked (id : String)
  | resolved (id : String) (link : LinkRecord)
  /-- the conf is rewritten, or there is none -/
  | cut (id : String) (link : LinkRecord)
  | unplugged (id : String) (link : LinkRecord)
  | dropped (id : String) (link : LinkRecord)
  | cleared (id : String) (link : LinkRecord)
  /-- the hub conf is synced, and these peers are to be set again -/
  | syncing (id : String) (link : LinkRecord) (pending : List (String × List String))
  | deleted (id : String) (link : LinkRecord)
  | failed

structure State where
  hub : KeyRotation.State
  deletion : Deletion

inductive Act
  | peer (a : KeyRotation.Act)
  | delete (id : String)
  | resolve
  | rewriteConf
  | removeLive (ok : Bool)
  | dropMetadata
  | clearCache
  /-- without a dump there is no drift; the sync may also fail -/
  | syncConf (dump : Bool) (physicalIfaces : List Nic)
  | syncFails
  | setPeer (ok : Bool)
  | answer
  | fail

/-- The interface and the key of an id; both must be there. -/
def splitId (id : String) : Option (String × String) :=
  let ifaceName := id.toList.takeWhile (· ≠ ':')
  let publicKey := (id.toList.dropWhile (· ≠ ':')).tail
  if ifaceName ≠ [] ∧ publicKey ≠ [] then some (String.ofList ifaceName, String.ofList publicKey)
  else none

/-- `_resolveLink` on the one interface there is. -/
def resolveLink (w : HubWorld) (s : KeyRotation.State) (id : String) : Option LinkRecord :=
  match splitId id with
  | some (ifaceName, _) =>
    if ifaceName = w.ifaceName then KeyRotation.foundLink w s id s.links else none
  | none => none

def publicKeyOf (id : String) : String := ((splitId id).map Prod.snd).getD ""

/-- The entries as the sync of the conf reads them. -/
def linkMetas (links : Table String LinkEntry) : Table String LinkMeta :=
  links.filterMap fun _ entry => some entry.toLinkMeta

def syncReads (s : KeyRotation.State) (dump : Bool) (physicalIfaces : List Nic) : SyncReads where
  links := linkMetas s.links
  live := if dump then some s.live else none
  physicalIfaces

/-- A failure before the peer is gone fails the deletion. -/
def Deletion.mayFail : Deletion → Bool
  | .asked _ | .resolved .. | .unplugged .. | .cleared .. => true
  | _ => false

def step (w : HubWorld) (s : State) : Act → Option State
  | .peer a => (KeyRotation.step w s.hub a).map fun hub => { s with hub }
  | .delete id =>
    match s.deletion with
    | .idle => some { s with deletion := .asked id }
    | _ => none
  | .resolve =>
    match s.deletion with
    | .asked id =>
      match resolveLink w s.hub id with
      | some link => some { s with deletion := .resolved id link }
      | none => some { s with deletion := .failed }
    | _ => none
  | .rewriteConf =>
    match s.deletion with
    | .resolved id link =>
      if s.hub.holder.isSome then none
      else some ⟨{ s.hub with conf := s.hub.conf.map (removePeerFromConf · (publicKeyOf id)) },
        .cut id link⟩
    | _ => none
  | .removeLive ok =>
    match s.deletion with
    | .cut id link =>
      some ⟨{ s.hub with live := if ok then s.hub.live.erase (publicKeyOf id) else s.hub.live },
        .unplugged id link⟩
    | _ => none
  | .dropMetadata =>
    match s.deletion with
    | .unplugged id link =>
      if s.hub.holder.isSome then none
      else some ⟨{ s.hub with links := s.hub.links.erase id }, .dropped id link⟩
    | _ => none
  | .clearCache =>
    match s.deletion with
    | .dropped id link => some ⟨{ s.hub with cache := .empty }, .cleared id link⟩
    | _ => none
  | .syncConf dump physicalIfaces =>
    match s.deletion with
    | .cleared id link =>
      if s.hub.holder.isSome then none
      else
        let reads := syncReads s.hub dump physicalIfaces
        let pending (conf : List String) :=
          (hubUpdates w.ifaceName reads (parsePeersFromConf conf)).entries
        some ⟨{ s.hub with conf := s.hub.conf.map (syncHubConf w.ifaceName reads) },
          .syncing id link ((s.hub.conf.map pending).getD [])⟩
    | _ => none
  | .syncFails =>
    match s.deletion with
    | .cleared id link => some { s with deletion := .syncing id link [] }
    | _ => none
  | .setPeer ok =>
    match s.deletion with
    | .syncing id link ((key, ips) :: pending) =>
      some
        ⟨{ s.hub with live := if ok then KeyRotation.addPeer s.hub.live key ips else s.hub.live },
        .syncing id link pending⟩
    | _ => none
  | .answer =>
    match s.deletion with
    | .syncing id link [] => some { s with deletion := .deleted id link }
    | _ => none
  | .fail => if s.deletion.mayFail then some { s with deletion := .failed } else none

/-! What a step can do. -/

inductive Step (w : HubWorld) (s : State) : Act → State → Prop
  | peer {a hub} (h : KeyRotation.Step w s.hub a hub) : Step w s (.peer a) { s with hub }
  | delete {id} (h : s.deletion = .idle) : Step w s (.delete id) { s with deletion := .asked id }
  | resolved {id link} (h : s.deletion = .asked id) (hl : resolveLink w s.hub id = some link) :
      Step w s .resolve { s with deletion := .resolved id link }
  | unresolved {id} (h : s.deletion = .asked id) : Step w s .resolve { s with deletion := .failed }
  | rewriteConf {id link} (h : s.deletion = .resolved id link) : Step w s .rewriteConf
      ⟨{ s.hub with conf := s.hub.conf.map (removePeerFromConf · (publicKeyOf id)) }, .cut id link⟩
  | removeLive {id link ok} (h : s.deletion = .cut id link) : Step w s (.removeLive ok)
      ⟨{ s.hub with live := if ok then s.hub.live.erase (publicKeyOf id) else s.hub.live },
        .unplugged id link⟩
  | dropMetadata {id link} (h : s.deletion = .unplugged id link) :
      Step w s .dropMetadata ⟨{ s.hub with links := s.hub.links.erase id }, .dropped id link⟩
  | clearCache {id link} (h : s.deletion = .dropped id link) :
      Step w s .clearCache ⟨{ s.hub with cache := .empty }, .cleared id link⟩
  | syncConf {id link dump physicalIfaces pending} (h : s.deletion = .cleared id link) :
      Step w s (.syncConf dump physicalIfaces)
        ⟨{ s.hub with
          conf := s.hub.conf.map (syncHubConf w.ifaceName (syncReads s.hub dump physicalIfaces)) },
          .syncing id link pending⟩
  | syncFails {id link} (h : s.deletion = .cleared id link) :
      Step w s .syncFails { s with deletion := .syncing id link [] }
  | setPeer {id link key ips pending ok}
      (h : s.deletion = .syncing id link ((key, ips) :: pending)) :
      Step w s (.setPeer ok)
        ⟨{ s.hub with live := if ok then KeyRotation.addPeer s.hub.live key ips else s.hub.live },
          .syncing id link pending⟩
  | answer {id link} (h : s.deletion = .syncing id link []) : Step w s .answer
      { s with deletion := .deleted id link }
  | fail : Step w s .fail { s with deletion := .failed }

variable {w : HubWorld} {key id T : String} {s t : State} {a : Act} {link : LinkRecord}

theorem step_cases (h : step w s a = some t) : Step w s a t := by
  unfold step at h
  split at h
  · obtain ⟨hub, hhub, rfl⟩ := Option.map_eq_some_iff.mp h
    exact .peer (KeyRotation.step_cases hhub)
  · split at h
    · next hd => exact Option.some.inj h ▸ .delete hd
    · cases h
  · split at h
    · next hd =>
      split at h
      · next hl => exact Option.some.inj h ▸ .resolved hd hl
      · exact Option.some.inj h ▸ .unresolved hd
    · cases h
  · split at h
    · next hd =>
      split at h
      · cases h
      · exact Option.some.inj h ▸ .rewriteConf hd
    · cases h
  · split at h
    · next hd => exact Option.some.inj h ▸ .removeLive hd
    · cases h
  · split at h
    · next hd =>
      split at h
      · cases h
      · exact Option.some.inj h ▸ .dropMetadata hd
    · cases h
  · split at h
    · next hd => exact Option.some.inj h ▸ .clearCache hd
    · cases h
  · split at h
    · next hd =>
      split at h
      · cases h
      · exact Option.some.inj h ▸ .syncConf hd
    · cases h
  · split at h
    · next hd => exact Option.some.inj h ▸ .syncFails hd
    · cases h
  · split at h
    · next hd => exact Option.some.inj h ▸ .setPeer hd
    · cases h
  · split at h
    · next hd => exact Option.some.inj h ▸ .answer hd
    · cases h
  · split at h
    · exact Option.some.inj h ▸ .fail
    · cases h

/-! Runs. -/

/-- `generatePeerConfig` is called for the peer only; `wg genkey` makes keys nobody has. -/
def ForPeer (w : HubWorld) (key : String) (s : State) : Act → Prop
  | .peer (.expire _) => True
  | .peer a => KeyRotation.Window w key s.hub a
  | _ => True

/-- Every peer of the conf with an address of the link names the key of the id as
`_removePeerFromConf` reads it. -/
def allNamed (s : State) : Bool :=
  match s.deletion, s.hub.conf with
  | .resolved id link, some conf => link.tunnelAddresses.all fun T => (sections conf).all fun sec =>
      !(sec.isPeer && sec.body.any (listsAddress T)) || sec.names (publicKeyOf id)
  | _, _ => true

/-- The peer has no metadata but under the id. -/
def lastEntry (w : HubWorld) (key : String) (s : State) : Bool :=
  match s.deletion with
  | .unplugged id _ => (key :: s.hub.keys).all fun k =>
      linkId w.ifaceName k = id || (s.hub.links.get? (linkId w.ifaceName k)).isNone
  | _ => true

/-- No rotation is half done where the deletion writes the conf and the metadata. -/
def InTime (w : HubWorld) (key : String) (s : State) : Act → Prop
  | .rewriteConf => allNamed s = true
  | .dropMetadata => lastEntry w key s = true
  | _ => True

instance (w : HubWorld) (key : String) (s : State) (a : Act) : Decidable (ForPeer w key s a) :=
  match a with
  | .peer a =>
    match a with
    | .expire _ => inferInstanceAs (Decidable True)
    | .ask c id => inferInstanceAs (Decidable (KeyRotation.Window w key s.hub (.ask c id)))
    | .genkey i k => inferInstanceAs (Decidable (KeyRotation.Window w key s.hub (.genkey i k)))
    | .readStore _ | .readDump _ | .swap _ _ | .wgRemove _ _ | .wgAdd _ _ | .moveEntry _ | .reread _
        | .finish _
    | .fail _ | .settle _ => inferInstanceAs (Decidable True)
  | .delete _ | .resolve | .rewriteConf | .removeLive _ | .dropMetadata | .clearCache
      | .syncConf _ _ | .syncFails
  | .setPeer _ | .answer | .fail => inferInstanceAs (Decidable True)

instance (w : HubWorld) (key : String) (s : State) (a : Act) : Decidable (InTime w key s a) :=
  match a with
  | .rewriteConf | .dropMetadata => inferInstanceAs (Decidable (_ = true))
  | .peer _ | .delete _ | .resolve | .removeLive _ | .clearCache | .syncConf _ _ | .syncFails
      | .setPeer _ | .answer
  | .fail => inferInstanceAs (Decidable True)

structure Start (s : State) : Prop where
  runs : ∀ i, s.hub.runs i = none
  sanitized : Sanitized (linkMetas s.hub.links)
  idle : s.deletion = .idle

/-- Neither the conf nor the metadata has a peer with a tunnel address of the link. -/
def Gone (w : HubWorld) (key : String) (link : LinkRecord) (hub : KeyRotation.State) : Prop :=
  (∀ T ∈ link.tunnelAddresses, ∀ conf, hub.conf = some conf → Free T conf) ∧
    ∀ id, PeerId w key hub id → hub.links.get? id = none

namespace Deletion

def link? : Deletion → Option LinkRecord
  | .resolved _ link | .cut _ link | .unplugged _ link | .dropped _ link | .cleared _ link
      | .syncing _ link _
  | .deleted _ link => some link
  | _ => none

/-- Once the conf is rewritten. -/
def cutLink : Deletion → Option LinkRecord
  | .cut _ link | .unplugged _ link | .dropped _ link | .cleared _ link | .syncing _ link _
      | .deleted _ link => some link
  | _ => none

/-- Once the metadata entry is dropped. -/
def isDropped : Deletion → Bool
  | .dropped .. | .cleared .. | .syncing .. | .deleted .. => true
  | _ => false

end Deletion

structure Revoking (w : HubWorld) (key : String) (s : State) : Prop where
  sanitized : Sanitized (linkMetas s.hub.links)
  runs : ∀ i id p, s.hub.runs i = some ⟨id, p⟩ → PeerId w key s.hub id
  hosts : ∀ link, s.deletion.link? = some link → ∀ T ∈ link.tunnelAddresses, isHostRoute T = true
  free : ∀ link, s.deletion.cutLink = some link → ∀ T ∈ link.tunnelAddresses, ∀ conf,
    s.hub.conf = some conf → Free T conf
  gone : s.deletion.isDropped = true → ∀ id, PeerId w key s.hub id → s.hub.links.get? id = none

theorem hosts_of_found {store : Table String LinkEntry} {hub : KeyRotation.State}
    (h : KeyRotation.foundLink w hub id store = some link) :
    ∀ T ∈ link.tunnelAddresses, isHostRoute T = true := by
  intro T hT
  obtain ⟨p, -, rfl⟩ := List.mem_map.mp (List.mem_of_find?_eq_some h)
  rw [buildLinkRecord, dedupe, List.mem_eraseDups, List.mem_filter, List.mem_filter] at hT
  exact hT.1.2

theorem Sanitized.erase {links : Table String LinkEntry} (h : Sanitized (linkMetas links)) :
    Sanitized (linkMetas (links.erase id)) := by
  intro id' entry nets hget
  refine h id' entry nets ?_
  rw [linkMetas, Table.get?_filterMap, Table.get?_erase] at hget
  split at hget
  · cases hget
  · rwa [linkMetas, Table.get?_filterMap]

theorem Sanitized.moveLink {links : Table String LinkEntry} {newId : String}
    (h : Sanitized (linkMetas links)) :
    Sanitized (linkMetas (KeyRotation.moveLink links id newId)) := by
  unfold KeyRotation.moveLink
  split
  · next entry hentry =>
    refine Sanitized.erase fun id' entry' nets hget => ?_
    rw [linkMetas, Table.get?_filterMap, Table.get?_set] at hget
    split at hget
    · refine h id entry' nets ?_
      rwa [linkMetas, Table.get?_filterMap, hentry]
    · refine h id' entry' nets ?_
      rwa [linkMetas, Table.get?_filterMap]
  · exact h

/-- The steps of the calls keep what the deletion has done. -/
theorem Revoking.peer {a : KeyRotation.Act} {hub : KeyRotation.State} (h : Revoking w key s)
    (hs : KeyRotation.Step w s.hub a hub) (hpeer : ForPeer w key s (.peer a)) :
    Revoking w key { s with hub } := by
  have hids : ∀ id, PeerId w key s.hub id → PeerId w key hub id := by
    intro id hid
    rcases hs.keys with hkeys | ⟨_, _, -, hkeys⟩
    · unfold PeerId
      rwa [hkeys]
    · refine hid.imp_right fun ⟨k, hk, he⟩ => ⟨k, ?_, he⟩
      rw [hkeys]
      exact List.mem_append_left _ hk
  constructor
  · rcases hs.links with hlinks | ⟨_, _, _, _, -, hlinks⟩
    · rw [hlinks]
      exact h.sanitized
    · rw [hlinks]
      exact Sanitized.moveLink h.sanitized
  · intro i id p hi
    rcases hs.runs hi with ⟨p', hi⟩ | ⟨c, rfl⟩
    · exact hids id (h.runs i id p' hi)
    · exact hids id hpeer
  · exact h.hosts
  · intro link hlink T hT conf hconf
    rcases hs.conf with hsame | ⟨before, old, new, hbefore, hafter⟩
    · exact h.free link hlink T hT conf (hsame ▸ hconf)
    · rw [hafter] at hconf
      rw [← Option.some.inj hconf]
      exact (h.free link hlink T hT before hbefore).rotated
  · intro hdropped id hid
    have hgone := h.gone hdropped
    have hsame : hub.links = s.hub.links := by
      rcases hs.links with hlinks | ⟨i, id', p, newId, hi, hlinks⟩
      · exact hlinks
      · rw [hlinks, KeyRotation.moveLink, hgone id' (h.runs i id' p hi)]
    rw [hsame]
    rcases hs.keys with hkeys | ⟨i, privateKey, rfl, hkeys⟩
    · unfold PeerId at hid
      rw [hkeys] at hid
      exact hgone id hid
    · unfold PeerId at hid
      rw [hkeys] at hid
      rcases hid with hfirst | ⟨k, hk, he⟩
      · exact hgone id (.inl hfirst)
      · rcases List.mem_append.mp hk with hk | hk
        · exact hgone id (.inr ⟨k, hk, he⟩)
        · rw [he, List.mem_singleton.mp hk]
          exact hpeer.2.2.2

/-- A deletion that goes on and leaves the conf and the metadata as they are. -/
theorem Revoking.advance (h : Revoking w key s) {d : Deletion} {hub : KeyRotation.State}
    (hlink : ∀ link, d.link? = some link → s.deletion.link? = some link)
    (hcut : ∀ link, d.cutLink = some link → s.deletion.cutLink = some link)
    (hdropped : d.isDropped = true → s.deletion.isDropped = true) (hconf : hub.conf = s.hub.conf)
    (hlinks : hub.links = s.hub.links) (hruns : hub.runs = s.hub.runs)
    (hkeys : hub.keys = s.hub.keys) :
    Revoking w key ⟨hub, d⟩ where
  sanitized := by rw [hlinks]; exact h.sanitized
  runs := by unfold PeerId; rw [hruns, hkeys]; exact h.runs
  hosts := fun link he => h.hosts link (hlink link he)
  free := fun link he => by rw [hconf]; exact h.free link (hcut link he)
  gone := fun hd => by unfold PeerId; rw [hlinks, hkeys]; exact h.gone (hdropped hd)

theorem Revoking.rewriteConf (h : Revoking w key s) (hd : s.deletion = .resolved id link)
    (hok : allNamed s = true) :
    Revoking w key ⟨{ s.hub with conf := s.hub.conf.map (removePeerFromConf · (publicKeyOf id)) },
      .cut id link⟩ := by
  have hhosts := h.hosts link (by rw [hd]; rfl)
  refine { h with hosts := fun _ he => ?_, free := fun _ he T hT conf hconf => ?_, gone := nofun }
  · cases he
    exact hhosts
  · cases he
    obtain ⟨before, hbefore, rfl⟩ := Option.map_eq_some_iff.mp hconf
    refine free_removePeerFromConf fun sec hsec hpeer hlists => ?_
    rw [allNamed, hd, hbefore] at hok
    have hsecs := List.all_eq_true.mp hok T hT
    have hnamed := List.all_eq_true.mp hsecs sec hsec
    rwa [hpeer, hlists] at hnamed

theorem Revoking.dropMetadata (h : Revoking w key s) (hd : s.deletion = .unplugged id link)
    (hok : lastEntry w key s = true) :
    Revoking w key ⟨{ s.hub with links := s.hub.links.erase id }, .dropped id link⟩ := by
  have hhosts := h.hosts link (by rw [hd]; rfl)
  have hfree := h.free link (by rw [hd]; rfl)
  refine { h with
    sanitized := Sanitized.erase h.sanitized
    hosts := fun _ he => ?_
    free := fun _ he => ?_
    gone := fun _ id' hid' => ?_ }
  · cases he
    exact hhosts
  · cases he
    exact hfree
  · obtain ⟨k, hk, rfl⟩ : ∃ k ∈ key :: s.hub.keys, id' = linkId w.ifaceName k := by
      rcases hid' with he | ⟨k, hk, he⟩
      · exact ⟨key, List.mem_cons_self, he⟩
      · exact ⟨k, List.mem_cons_of_mem _ hk, he⟩
    rw [lastEntry, hd] at hok
    have hlast := List.all_eq_true.mp hok k hk
    change (s.hub.links.erase id).get? (linkId w.ifaceName k) = none
    rw [Table.get?_erase]
    split
    · rfl
    · next hne => simpa [hne] using hlast

theorem Revoking.syncConf (h : Revoking w key s) {reads : SyncReads}
    {pending : List (String × List String)}
    (hd : s.deletion = .cleared id link) (hreads : reads.links = linkMetas s.hub.links) :
    Revoking w key ⟨{ s.hub with conf := s.hub.conf.map (syncHubConf w.ifaceName reads) },
      .syncing id link pending⟩ := by
  have hhosts := h.hosts link (by rw [hd]; rfl)
  have hfree := h.free link (by rw [hd]; rfl)
  refine { h with
    hosts := fun _ he => ?_
    free := fun _ he T hT conf hconf => ?_
    gone := fun _ => h.gone (by rw [hd]; rfl) }
  · cases he
    exact hhosts
  · cases he
    obtain ⟨before, hbefore, rfl⟩ := Option.map_eq_some_iff.mp hconf
    exact (hfree T hT before hbefore).syncHubConf (hhosts T hT) (hreads ▸ h.sanitized)

theorem Revoking.step (h : Revoking w key s) (hs : Step w s a t) (hpeer : ForPeer w key s a)
    (hok : InTime w key s a) :
    Revoking w key t := by
  cases hs with
  | peer hs => exact h.peer hs hpeer
  | delete _ => exact h.advance nofun nofun nofun rfl rfl rfl rfl
  | @resolved id link _ hl =>
    refine { h with hosts := fun _ he => ?_, free := nofun, gone := nofun }
    cases he
    unfold resolveLink at hl
    split at hl
    · split at hl
      · exact hosts_of_found hl
      · cases hl
    · cases hl
  | unresolved _ => exact h.advance nofun nofun nofun rfl rfl rfl rfl
  | rewriteConf hd => exact h.rewriteConf hd hok
  | removeLive hd =>
    exact h.advance (by rw [hd]; exact fun _ => id) (by rw [hd]; exact fun _ => id)
      nofun rfl rfl rfl rfl
  | dropMetadata hd => exact h.dropMetadata hd hok
  | clearCache hd =>
    exact h.advance (by rw [hd]; exact fun _ => id) (by rw [hd]; exact fun _ => id)
      (by rw [hd]; exact id) rfl rfl rfl rfl
  | syncConf hd => exact h.syncConf hd rfl
  | syncFails hd =>
    exact h.advance (by rw [hd]; exact fun _ => id) (by rw [hd]; exact fun _ => id)
      (by rw [hd]; exact id) rfl rfl rfl rfl
  | setPeer hd =>
    exact h.advance (by rw [hd]; exact fun _ => id) (by rw [hd]; exact fun _ => id)
      (by rw [hd]; exact id) rfl rfl rfl rfl
  | answer hd =>
    exact h.advance (by rw [hd]; exact fun _ => id) (by rw [hd]; exact fun _ => id)
      (by rw [hd]; exact id) rfl rfl rfl rfl
  | fail => exact h.advance nofun nofun nofun rfl rfl rfl rfl

/-- Whatever else happens, a deletion whose writes meet no half-done rotation leaves nothing of the
peer. -/
theorem deleted_stays_deleted {s₀ : State} {acts : List Act} (hstart : Start s₀)
    (hrun : Run (Guarded (fun s a t => step w s a = some t) fun s a => ForPeer w key s a ∧
      InTime w key s a) s₀ acts s)
    (hdeleted : s.deletion = .deleted id link) : Gone w key link s.hub := by
  have hinit : Revoking w key s₀ := by
    refine ⟨hstart.sanitized, fun i id p hi => ?_, ?_, ?_, ?_⟩
    · rw [hstart.runs] at hi
      cases hi
    all_goals
      rw [hstart.idle]
      nofun
  have hinv : Revoking w key s :=
    hrun.guarded_invariant (fun _ _ _ hs hok h => h.step (step_cases hs) hok.1 hok.2) hinit
  exact ⟨hinv.free link (by rw [hdeleted]; rfl), hinv.gone (by rw [hdeleted]; rfl)⟩

/-! A client that is deleted after its key was rotated, and one that is deleted while it is. -/

open KeyRotation (sampleWorld sampleStart rotating returning)

def idleStart : State := ⟨sampleStart, .idle⟩

/-- What follows the rewrite of the conf. -/
def deleting : List Act :=
  [.removeLive true, .dropMetadata, .clearCache, .syncConf true [], .answer]

def rotatedFirst : List Act :=
  .peer (.ask 0 "wg0:kA=") :: (rotating 0 "kB" ++ returning 0).map .peer ++
    [.delete "wg0:kB=", .resolve, .rewriteConf] ++ deleting

/-- The key is rotated between the lookup of the link and the rewrite of the conf. -/
def rotatedMeanwhile : List Act :=
  [.delete "wg0:kA=", .resolve, .peer (.ask 0 "wg0:kA=")] ++ (rotating 0 "kB").map .peer ++
    [.rewriteConf] ++ deleting ++ (returning 0).map .peer

theorem idleStart_start : Start idleStart := by
  refine ⟨fun _ => rfl, fun id entry nets hget hnets => ?_, rfl⟩
  have hentries : (linkMetas sampleStart.links).entries =
      [("wg0:kA=", ⟨some "phone", some "client", none⟩)] := by
    decide +kernel
  have hmem := Table.mem_entries_iff.mpr hget
  rw [show idleStart.hub.links = sampleStart.links from rfl, hentries, List.mem_singleton] at hmem
  rw [(Prod.mk.inj hmem).2] at hnets
  cases hnets

/-- The link of a deletion that is over. -/
def deletedLink (s : State) : Option LinkRecord :=
  match s.deletion with
  | .deleted _ link => some link
  | _ => none

theorem deleted_of_link (h : deletedLink s = some link) : ∃ id, s.deletion = .deleted id link := by
  unfold deletedLink at h
  split at h
  · next id link' hd => exact ⟨id, Option.some.inj h ▸ hd⟩
  · cases h

theorem deleted_stays_deleted_sample :
    ∃ (s : State) (id : String) (link : LinkRecord), s.deletion = .deleted id link ∧
    link.tunnelAddresses = ["10.10.0.2/32"] ∧ Gone sampleWorld "kA=" link s.hub := by
  have hrun : ((rotatedFirst.foldlM (Run.checked (step sampleWorld) fun s a =>
      ForPeer sampleWorld "kA=" s a ∧ InTime sampleWorld "kA=" s a) idleStart).map fun s =>
        (deletedLink s).map LinkRecord.tunnelAddresses) =
          some (some ["10.10.0.2/32"]) := by decide +kernel
  obtain ⟨s, hs, hlink⟩ := Option.map_eq_some_iff.mp hrun
  obtain ⟨link, hlink, haddresses⟩ := Option.map_eq_some_iff.mp hlink
  obtain ⟨id, hdeleted⟩ := deleted_of_link hlink
  exact ⟨s, id, link, hdeleted, haddresses,
    deleted_stays_deleted idleStart_start (Run.of_checked hs) hdeleted⟩

/-- A rotation between the lookup and the rewrite: the deletion succeeds, and the peer is still in
the conf and in the metadata, with the key the run hands out. -/
theorem deleted_survives : Start idleStart ∧ ∃ (s : State) (id : String) (link : LinkRecord),
    Run (Guarded (fun s a t => step sampleWorld s a = some t) (ForPeer sampleWorld "kA=")) idleStart
      rotatedMeanwhile s ∧
    s.deletion = .deleted id link ∧ link.tunnelAddresses = ["10.10.0.2/32"] ∧
    s.hub.conf = some ["[Interface]", "[Peer]", "PublicKey = kB=", "AllowedIPs = 10.10.0.2/32",
      ""] ∧
    KeyRotation.givenKey s.hub 0 = some "kB=" ∧ s.hub.links.keys = ["wg0:kB="] ∧
    ¬ Gone sampleWorld "kA=" link s.hub := by
  have hrun :
    ((rotatedMeanwhile.foldlM (Run.checked (step sampleWorld) (ForPeer sampleWorld "kA="))
      idleStart).map
      fun s =>
        ((deletedLink s).map LinkRecord.tunnelAddresses, s.hub.conf, KeyRotation.givenKey s.hub 0,
          s.hub.links.keys)) =
      some (some ["10.10.0.2/32"],
        some ["[Interface]", "[Peer]", "PublicKey = kB=", "AllowedIPs = 10.10.0.2/32", ""],
          some "kB=", ["wg0:kB="]) := by
    decide +kernel
  obtain ⟨s, hs, h⟩ := Option.map_eq_some_iff.mp hrun
  injection h with hlink h
  injection h with hconf h
  injection h with hgiven hkeys
  obtain ⟨link, hlink, haddresses⟩ := Option.map_eq_some_iff.mp hlink
  obtain ⟨id, hdeleted⟩ := deleted_of_link hlink
  refine ⟨idleStart_start, s, id, link, Run.of_checked hs, hdeleted, haddresses, hconf, hgiven,
    hkeys, fun hgone => ?_⟩
  have hfree := hgone.1 "10.10.0.2/32" (by rw [haddresses]; exact List.mem_singleton_self _) _ hconf
    "AllowedIPs = 10.10.0.2/32" (by decide +kernel)
  revert hfree
  decide +kernel

end FloppyGuard.WireGuard.Revocation
