import FloppyGuard.Lib.Run
import FloppyGuard.WireGuard.ConfSync
import FloppyGuard.WireGuard.KeyRotation
import FloppyGuard.WireGuard.TunnelAddress

/-! `createPeer` and `deletePeer`, one call after the other, each with the hub sync it ends with.
The conf is the peers it lists. A call that is refused changes nothing and is no step. -/
namespace FloppyGuard.WireGuard.Allocation

open Text

/-- The interface the peers are on. -/
structure Hub where
  ifaceName : String
  address : HubAddress

/-- What a call of `createPeer` is given, the key it makes, and the tunnel addresses of the other
interfaces' links. -/
structure NewPeer where
  publicKey : String
  name : Option String
  linkType : String
  /-- as `sanitizeNetworkArray` returns them -/
  importedNets : List Cidr
  elsewhere : List String

structure State where
  /-- the peers of the conf and their `AllowedIPs` -/
  peerMap : Table String (List String)
  live : Table String (List String)
  links : Table String LinkMeta
  /-- the address each peer was given -/
  assigned : Table String Ip

inductive Act
  | create (p : NewPeer)
  | delete (publicKey : String)

/-- `${nextIP}/32` -/
def peerAllowedIP (a : Ip) : String := ipText a ++ "/32"

namespace NewPeer

variable (p : NewPeer)

def isClientType : Prop := p.linkType = "client"

instance : Decidable p.isClientType := inferInstanceAs (Decidable (_ = _))

def hubAllowedIPs (a : Ip) : List String :=
  peerAllowedIP a :: if p.isClientType then [] else p.importedNets.map Cidr.render

def entry : LinkMeta := ⟨p.name, some p.linkType, some (p.importedNets.map Cidr.render)⟩

end NewPeer

/-- The tunnel addresses of the interface's links. -/
def tunnelAddresses (live : Table String (List String)) : List String :=
  live.entries.flatMap fun p => dedupe (p.2.filter isHostRoute)

namespace State

variable (s : State) (hub : Hub)

def used (elsewhere : List String) : List String := tunnelAddresses s.live ++ elsewhere

/-- `_syncHubConfCore`: the conf and the live interface get the updates. -/
def sync : State :=
  let peerUpdates := hubUpdates hub.ifaceName ⟨s.links, some s.live, []⟩ s.peerMap
  { s with
    peerMap := s.peerMap.filterMap fun key current => some ((peerUpdates.get? key).getD current)
    live := peerUpdates.entries.foldl (fun live p => KeyRotation.addPeer live p.1 p.2) s.live }

/-- The new peer in the conf, on the interface and in the metadata. -/
def add (p : NewPeer) (a : Ip) : State where
  peerMap := s.peerMap.set p.publicKey (p.hubAllowedIPs a)
  live := KeyRotation.addPeer s.live p.publicKey (p.hubAllowedIPs a)
  links := s.links.set (linkId hub.ifaceName p.publicKey) p.entry
  assigned := s.assigned.set p.publicKey a

/-- `createPeer` once it has its address. -/
def create (p : NewPeer) (a : Ip) : State :=
  if p.importedNets ≠ [] ∧ ¬ p.isClientType then (s.add hub p a).sync hub else s.add hub p a

def remove (publicKey : String) : State where
  peerMap := s.peerMap.erase publicKey
  live := s.live.erase publicKey
  links := s.links.erase (linkId hub.ifaceName publicKey)
  assigned := s.assigned.erase publicKey

/-- `deletePeer` -/
def delete (publicKey : String) : State := (s.remove hub publicKey).sync hub

end State

/-- `genkey` makes a key no peer has. -/
inductive Step (hub : Hub) : State → Act → State → Prop
  | create {s : State} {p : NewPeer} {a : Ip} : s.live.get? p.publicKey = none →
      hub.address.nextIP (s.used p.elsewhere) = some (ipText a) →
        Step hub s (.create p) (s.create hub p a)
  | delete {s : State} {publicKey : String} : Step hub s (.delete publicKey)
      (s.delete hub publicKey)

/-- The search of the call does not run into the hub's own address. -/
def Unaliased (hub : Hub) (s : State) : Act → Prop
  | .create p => ¬ hub.address.Aliased (s.used p.elsewhere)
  | .delete _ => True

/-- No two peers have one address, and none has the hub's. -/
structure Separate (hub : Hub) (s : State) : Prop where
  apart : ∀ key key' a, s.assigned.get? key = some a → s.assigned.get? key' = some a → key = key'
  notHub : ∀ key a, s.assigned.get? key = some a → a ≠ hub.address.ip

/-- Every list has entries as a comma-separated list reads them. -/
def Clean (t : Table String (List String)) : Prop :=
  ∀ key list, t.get? key = some list → ∀ c ∈ list, Listed c

/-- Some peer of the interface has the entry. -/
def Held (live : Table String (List String)) (c : String) : Prop :=
  ∃ key list, live.get? key = some list ∧ c ∈ list

/-- The conf and the interface list the same peers, and every peer's own address is in the conf. -/
structure Sound (s : State) : Prop where
  keys : ∀ key, (s.live.get? key).isSome = (s.peerMap.get? key).isSome
  clean : Clean s.peerMap
  liveClean : Clean s.live
  stored : ∀ id entry nets, s.links.get? id = some entry → entry.importedNetworks = some nets →
    ∀ c ∈ nets, Listed c
  own : ∀ key a, s.assigned.get? key = some a → ∃ list, s.peerMap.get? key = some list ∧
    peerAllowedIP a ∈ list

/-- Between two calls every address of the conf is on the interface, at whichever peer. -/
structure Settled (s : State) : Prop extends Sound s where
  seen : ∀ key list c, s.peerMap.get? key = some list → c ∈ list → isHostRoute c = true →
    Held s.live c

variable {hub : Hub} {s t : State} {p : NewPeer} {live peerMap : Table String (List String)}
  {key key' c : String} {ips list current : List String} {a : Ip} {elsewhere : List String}

/-! The text of an address. -/

theorem isHostRoute_peerAllowedIP : isHostRoute (peerAllowedIP a) = true := isHostRoute_32 _

theorem stripPrefix_peerAllowedIP : stripPrefix (peerAllowedIP a) = ipText a := by
  have htext : peerAllowedIP a = String.ofList ((ipText a).toList ++ '/' :: ['3', '2']) := by
    have hlen : "/32".toList = '/' :: ['3', '2'] := by decide
    apply String.toList_injective
    rw [peerAllowedIP, String.toList_append, hlen, String.toList_ofList]
  rw [htext]
  exact stripPrefix_append _ (by decide) (by decide)

theorem listed_peerAllowedIP : Listed (peerAllowedIP a) := by
  have htext : (peerAllowedIP a).toList = intToIp a ++ "/32".toList := by
    rw [peerAllowedIP, String.toList_append, ipText, String.toList_ofList]
  constructor
  · intro he
    rw [he] at htext
    simp at htext
  · rw [htext, List.mem_append, not_or]
    refine ⟨fun hc => ?_, by decide⟩
    rcases mem_intToIp hc with hc | hc <;> exact absurd hc (by decide)

theorem listed_hubAllowedIPs : ∀ c ∈ p.hubAllowedIPs a, Listed c := by
  intro c hc
  rcases List.mem_cons.mp hc with rfl | hc
  · exact listed_peerAllowedIP
  · split at hc
    · cases hc
    · obtain ⟨block, -, rfl⟩ := List.mem_map.mp hc
      exact (trimmed_render block).1

/-- The links show the addresses of the live peers. -/
theorem used_of_held (h : Held s.live (peerAllowedIP a)) : Used (s.used elsewhere) a := by
  obtain ⟨key, list, hlist, hc⟩ := h
  have hmem : peerAllowedIP a ∈ tunnelAddresses s.live := by
    refine List.mem_flatMap.mpr ⟨(key, list), Table.mem_entries_iff.mpr hlist, ?_⟩
    rw [dedupe, List.mem_eraseDups, List.mem_filter, List.mem_filter]
    exact ⟨⟨hc, isHostRoute_peerAllowedIP⟩, decide_eq_true listed_peerAllowedIP.1⟩
  rw [Used, ← stripPrefix_peerAllowedIP]
  exact List.mem_map_of_mem (List.mem_append_left _ hmem)

/-! A peer that is set on the interface. -/

theorem get?_addPeer : (KeyRotation.addPeer live key ips).get? key' =
    if key' = key then some ips else (live.get? key').map fun nets => nets.filter (· ∉ ips) := by
  rw [KeyRotation.addPeer, Table.get?_set, Table.get?_filterMap]
  split
  · rfl
  · cases live.get? key' <;> rfl

theorem clean_addPeer (h : Clean live) (hips : ∀ c ∈ ips, Listed c) :
    Clean (KeyRotation.addPeer live key ips) := by
  intro key' list hlist c hc
  rw [get?_addPeer] at hlist
  split at hlist
  · cases hlist
    exact hips c hc
  · obtain ⟨nets, hnets, rfl⟩ := Option.map_eq_some_iff.mp hlist
    exact h key' nets hnets c (List.mem_filter.mp hc).1

/-- An entry that is set is on the interface, and so is one some other peer has. -/
theorem held_addPeer
    (h : c ∈ ips ∨ ∃ key' list, key' ≠ key ∧ live.get? key' = some list ∧ c ∈ list) :
    Held (KeyRotation.addPeer live key ips) c := by
  by_cases hc : c ∈ ips
  · exact ⟨key, ips, by rw [get?_addPeer, if_pos rfl], hc⟩
  · obtain ⟨key', list, hne, hlist, hmem⟩ := h.resolve_left hc
    refine ⟨key', list.filter (· ∉ ips), by rw [get?_addPeer, if_neg hne, hlist]; rfl, ?_⟩
    exact List.mem_filter.mpr ⟨hmem, decide_eq_true hc⟩

section Updates

variable {us : List (String × List String)}

theorem clean_updates (h : Clean live) (hus : ∀ u ∈ us, ∀ c ∈ u.2, Listed c) :
    Clean (us.foldl (fun live u => KeyRotation.addPeer live u.1 u.2) live) :=
  List.foldlRecOn us _ h fun _ hlive u hu => clean_addPeer hlive (hus u hu)

theorem keys_updates (hus : ∀ u ∈ us, (live.get? u.1).isSome) :
    ((us.foldl (fun live u => KeyRotation.addPeer live u.1 u.2) live).get? key).isSome =
    (live.get? key).isSome := by
  refine List.foldlRecOn (motive := fun t : Table String (List String) =>
    (t.get? key).isSome = (live.get? key).isSome) us _ rfl fun t ht u hu => ?_
  rw [get?_addPeer]
  split
  · next hkey => rw [hkey, hus u hu]; rfl
  · rw [Option.isSome_map, ht]

/-- After the updates an entry is on the interface if one of them has it, or else a peer none of
them touches. -/
theorem held_updates (hnd : (us.map Prod.fst).Nodup)
    (h : (∃ u ∈ us, c ∈ u.2) ∨ ∃ key list, key ∉ us.map Prod.fst ∧ live.get? key = some list ∧
      c ∈ list) :
    Held (us.foldl (fun live u => KeyRotation.addPeer live u.1 u.2) live) c := by
  induction us generalizing live with
  | nil =>
    obtain ⟨key, list, -, hlist, hc⟩ := h.resolve_left (by simp)
    exact ⟨key, list, hlist, hc⟩
  | cons u us ih =>
    rw [List.map_cons, List.nodup_cons] at hnd
    rw [List.foldl_cons]
    refine ih hnd.2 ?_
    by_cases hlater : ∃ u ∈ us, c ∈ u.2
    · exact .inl hlater
    right
    by_cases hu : c ∈ u.2
    · exact ⟨u.1, u.2, hnd.1, by rw [get?_addPeer, if_pos rfl], hu⟩
    · have hnone : ¬ ∃ v ∈ u :: us, c ∈ v.2 := by
        rintro ⟨v, hv, hc⟩
        rcases List.mem_cons.mp hv with rfl | hv
        · exact hu hc
        · exact hlater ⟨v, hv, hc⟩
      obtain ⟨key, list, hkey, hlist, hc⟩ := h.resolve_left hnone
      rw [List.map_cons, List.mem_cons, not_or] at hkey
      refine ⟨key, list.filter (· ∉ u.2), hkey.2,
        by rw [get?_addPeer, if_neg hkey.1, hlist]; rfl, ?_⟩
      exact List.mem_filter.mpr ⟨hc, decide_eq_true hu⟩

end Updates

/-! The updates of a sync. -/

section Sync

variable {ifaceName : String} {reads : SyncReads} {entry : LinkMeta}

/-- A new list keeps the host routes. -/
theorem host_peerUpdate (h : peerUpdate entry current = some list) (hhost : isHostRoute c = true) :
    c ∈ list ↔ c ∈ current := by
  obtain ⟨nets, rfl, hnets⟩ := peerUpdate_cases h
  rw [List.mem_eraseDups, List.mem_append, List.mem_filter]
  constructor
  · rintro (hc | hc)
    · exact hc.1
    · have hnot := (hnets c hc).1
      rw [hhost] at hnot
      cases hnot
  · exact fun hc => .inl ⟨hc, hhost⟩

/-- An update is made from the entry of the peer, or is the list of the conf. -/
theorem update_cases (h : (hubUpdates ifaceName reads peerMap).get? key = some list) :
    ∃ current, peerMap.get? key = some current ∧ (list = current ∨
      ∃ entry, reads.links.get? (linkId ifaceName key) = some entry ∧
      peerUpdate entry current = some list) := by
  have hbuilt : (buildPeerUpdates peerMap reads.links ifaceName).get? key = some list ∨
      peerMap.get? key = some list := by
    unfold hubUpdates at h
    dsimp only at h
    split at h
    · exact .inl h
    · exact get?_drift h
  rcases hbuilt with hbuilt | hconf
  · rw [buildPeerUpdates, Table.get?_filterMap] at hbuilt
    obtain ⟨current, hcurrent, hbuilt⟩ := Option.bind_eq_some_iff.mp hbuilt
    obtain ⟨entry, hentry, hbuilt⟩ := Option.bind_eq_some_iff.mp hbuilt
    exact ⟨current, hcurrent, .inr ⟨entry, hentry, hbuilt⟩⟩
  · exact ⟨list, hconf, .inl rfl⟩

/-- What the drift check makes of the update of its peer. -/
def drifted (live : Table String (List String)) (p : String × List String)
    (update : Option (List String)) :
    Option (List String) :=
  if update.isSome then update
  else match live.get? p.1 with
    | none => update
    | some liveIPs => if sortedJoin liveIPs ≠ sortedJoin p.2 then some p.2 else update

theorem get?_drift_step (updates : Table String (List String)) (p : String × List String)
    (k : String) :
    (drift live updates p).get? k = if k = p.1 then drifted live p (updates.get? k)
    else updates.get? k := by
  by_cases hk : k = p.1
  · subst hk
    rw [if_pos rfl, drift, drifted]
    by_cases hsome : (updates.get? p.1).isSome
    · rw [if_pos hsome, if_pos hsome]
    rw [if_neg hsome, if_neg hsome]
    cases live.get? p.1 with
    | none => rfl
    | some liveIPs =>
      dsimp only
      split
      · rw [Table.get?_set, if_pos rfl]
      · rfl
  · rw [if_neg hk, drift]
    split
    · rfl
    split
    · rfl
    split
    · rw [Table.get?_set, if_neg hk]
    · rfl

/-- A peer without an update has the networks of the conf on the interface. -/
theorem same_of_no_update (hlive : reads.live = some live) (hconf : peerMap.get? key = some current)
    (hips : live.get? key = some ips) (h : (hubUpdates ifaceName reads peerMap).get? key = none) :
    sortedJoin ips = sortedJoin current := by
  rw [hubUpdates, hlive] at h
  dsimp only at h
  have hget :
    (peerMap.entries.foldl (drift live) (buildPeerUpdates peerMap reads.links ifaceName)).get? key =
      drifted live (key, current) ((buildPeerUpdates peerMap reads.links ifaceName).get? key) :=
    Table.get?_foldl_of_mem _ get?_drift_step peerMap.nodup (Table.mem_entries_iff.mpr hconf)
  rw [h, drifted, hips] at hget
  split at hget
  · next hsome =>
    rw [← hget] at hsome
    cases hsome
  · dsimp only at hget
    split at hget
    · cases hget
    · next hsame => exact not_not.mp hsame

end Sync

/-! What one call keeps. -/

theorem get?_sync_peerMap : (s.sync hub).peerMap.get? key = (s.peerMap.get? key).map fun current =>
    ((hubUpdates hub.ifaceName ⟨s.links, some s.live, []⟩ s.peerMap).get? key).getD current := by
  rw [State.sync]
  dsimp only
  rw [Table.get?_filterMap]
  cases s.peerMap.get? key <;> rfl

/-- The host routes of the conf stay what they are. -/
theorem host_sync (h : (s.sync hub).peerMap.get? key = some list) :
    ∃ current, s.peerMap.get? key = some current ∧
    ∀ c, isHostRoute c = true → (c ∈ list ↔ c ∈ current) := by
  rw [get?_sync_peerMap] at h
  obtain ⟨current, hcurrent, rfl⟩ := Option.map_eq_some_iff.mp h
  refine ⟨current, hcurrent, fun c hhost => ?_⟩
  cases hupdate : (hubUpdates hub.ifaceName ⟨s.links, some s.live, []⟩ s.peerMap).get? key with
  | none => rfl
  | some new =>
    obtain ⟨conf, hconf, hnew⟩ := update_cases hupdate
    obtain rfl := Option.some.inj (hcurrent.symm.trans hconf)
    rcases hnew with rfl | ⟨entry, -, hnew⟩
    · rfl
    · exact host_peerUpdate hnew hhost

theorem Sound.listed_update (h : Sound s) {ifaceName : String}
    (hupdate : (hubUpdates ifaceName ⟨s.links, some s.live, []⟩ s.peerMap).get? key = some list) :
    ∀ c ∈ list, Listed c := by
  obtain ⟨current, hcurrent, hnew⟩ := update_cases hupdate
  rcases hnew with rfl | ⟨entry, hentry, hnew⟩
  · exact h.clean key list hcurrent
  · intro c hc
    rcases mem_peerUpdate hnew c hc with hc | ⟨-, nets, hnets, hc⟩
    · exact h.clean key current hcurrent c hc
    · exact h.stored _ entry nets hentry hnets c hc

/-- A sync puts every address of the conf on the interface. -/
theorem Sound.sync (h : Sound s) : Settled (s.sync hub) := by
  set updates := hubUpdates hub.ifaceName ⟨s.links, some s.live, []⟩ s.peerMap with hupdates
  have hlisted : ∀ key list, updates.get? key = some list → ∀ c ∈ list, Listed c :=
    fun _ _ hu => h.listed_update hu
  have hentries : ∀ u ∈ updates.entries, updates.get? u.1 = some u.2 :=
    fun u hu => Table.get?_of_mem hu
  refine ⟨⟨fun key => ?_, fun key list hlist c hc => ?_, ?_, h.stored, fun key a ha => ?_⟩,
    fun key list c hlist hc hhost => ?_⟩
  · rw [get?_sync_peerMap, Option.isSome_map, ← h.keys]
    refine keys_updates fun u hu => ?_
    obtain ⟨current, hcurrent, -⟩ := update_cases (hentries u hu)
    rw [h.keys, hcurrent]
    rfl
  · rw [get?_sync_peerMap, ← hupdates] at hlist
    obtain ⟨current, hcurrent, rfl⟩ := Option.map_eq_some_iff.mp hlist
    cases hupdate : updates.get? key with
    | none => exact h.clean key current hcurrent c (by simpa [hupdate] using hc)
    | some new => exact hlisted key new hupdate c (by simpa [hupdate] using hc)
  · exact clean_updates h.liveClean fun u hu => hlisted u.1 u.2 (hentries u hu)
  · obtain ⟨current, hcurrent, hown⟩ := h.own key a ha
    have hsome : ((s.sync hub).peerMap.get? key).isSome := by
      rw [get?_sync_peerMap, hcurrent]
      rfl
    obtain ⟨list, hlist⟩ := Option.isSome_iff_exists.mp hsome
    obtain ⟨current', hcurrent', hmem⟩ := host_sync hlist
    obtain rfl := Option.some.inj (hcurrent.symm.trans hcurrent')
    exact ⟨list, hlist, (hmem _ isHostRoute_peerAllowedIP).mpr hown⟩
  · obtain ⟨current, hcurrent, hmem⟩ := host_sync hlist
    have hc := (hmem c hhost).mp hc
    refine held_updates updates.nodup ?_
    cases hupdate : updates.get? key with
    | some new =>
      obtain ⟨conf, hconf, hnew⟩ := update_cases hupdate
      obtain rfl := Option.some.inj (hcurrent.symm.trans hconf)
      refine .inl ⟨(key, new), Table.mem_entries_iff.mpr hupdate, ?_⟩
      rcases hnew with rfl | ⟨entry, -, hnew⟩
      · exact hc
      · exact (host_peerUpdate hnew hhost).mpr hc
    | none =>
      -- without an update the peer has its address already
      have hlive : (s.live.get? key).isSome := by rw [h.keys, hcurrent]; rfl
      obtain ⟨ips, hips⟩ := Option.isSome_iff_exists.mp hlive
      have hsame := same_of_no_update rfl hcurrent hips hupdate
      have hmem :=
        (mem_iff_of_sortedJoin (h.liveClean key ips hips) (h.clean key current hcurrent) hsame).mpr
          hc
      exact .inr ⟨key, ips, Table.get?_eq_none.mp hupdate, hips, hmem⟩

/-- A new peer takes its networks from the others, and nothing else. -/
theorem Sound.add (h : Sound s) : Sound (s.add hub p a) := by
  constructor
  · intro key
    rw [State.add, get?_addPeer, Table.get?_set]
    split
    · rfl
    · rw [Option.isSome_map, h.keys]
  · intro key list hlist
    rw [State.add, Table.get?_set] at hlist
    split at hlist
    · obtain rfl := Option.some.inj hlist
      exact listed_hubAllowedIPs
    · exact h.clean key list hlist
  · exact clean_addPeer h.liveClean listed_hubAllowedIPs
  · intro id entry nets hentry hnets
    rw [State.add, Table.get?_set] at hentry
    split at hentry
    · obtain rfl := Option.some.inj hentry
      obtain rfl := Option.some.inj hnets
      intro c hc
      obtain ⟨block, -, rfl⟩ := List.mem_map.mp hc
      exact (trimmed_render block).1
    · exact h.stored id entry nets hentry hnets
  · intro key b hb
    rw [State.add, Table.get?_set] at hb
    rw [State.add, Table.get?_set]
    split at hb
    · next hkey =>
      obtain rfl := Option.some.inj hb
      exact ⟨_, if_pos hkey, List.mem_cons_self⟩
    · next hkey =>
      rw [if_neg hkey]
      exact h.own key b hb

theorem Settled.create (h : Settled s) (hnew : s.live.get? p.publicKey = none) :
    Settled (s.create hub p a) := by
  rw [State.create]
  split
  · exact h.toSound.add.sync
  · refine ⟨h.toSound.add, fun key list c hlist hc hhost => held_addPeer ?_⟩
    rw [State.add, Table.get?_set] at hlist
    split at hlist
    · obtain rfl := Option.some.inj hlist
      exact .inl hc
    · obtain ⟨key', list', hlist', hc'⟩ := h.seen key list c hlist hc hhost
      refine .inr ⟨key', list', ?_, hlist', hc'⟩
      rintro rfl
      rw [hnew] at hlist'
      cases hlist'

theorem Sound.remove (h : Sound s) : Sound (s.remove hub key) := by
  have hkept : ∀ {ν : Type} {t : Table String ν} {k k' : String} {v : ν},
    (t.erase k).get? k' = some v →
      k' ≠ k ∧ t.get? k' = some v := by
    intro ν t k k' v hv
    rw [Table.get?_erase] at hv
    split at hv
    · cases hv
    · next hne => exact ⟨hne, hv⟩
  constructor
  · intro key'
    rw [State.remove, Table.get?_erase, Table.get?_erase]
    split
    · rfl
    · exact h.keys key'
  · exact fun key' list hlist => h.clean key' list (hkept hlist).2
  · exact fun key' list hlist => h.liveClean key' list (hkept hlist).2
  · exact fun id entry nets hentry => h.stored id entry nets (hkept hentry).2
  · intro key' b hb
    obtain ⟨hne, hb⟩ := hkept hb
    obtain ⟨list, hlist, hmem⟩ := h.own key' b hb
    exact ⟨list, by rw [State.remove, Table.get?_erase, if_neg hne, hlist], hmem⟩

theorem Settled.delete (h : Settled s) : Settled (s.delete hub key) := h.toSound.remove.sync

/-! The addresses. -/

theorem assigned_create : (s.create hub p a).assigned = s.assigned.set p.publicKey a := by
  rw [State.create]
  split <;> rfl

theorem assigned_delete : (s.delete hub key).assigned = s.assigned.erase key := rfl

/-- An address a peer was given is used. -/
theorem Settled.used (h : Settled s) (ha : s.assigned.get? key = some a) :
    Used (s.used elsewhere) a := by
  obtain ⟨list, hlist, hmem⟩ := h.own key a ha
  exact used_of_held (h.seen key list _ hlist hmem isHostRoute_peerAllowedIP)

theorem Separate.create (h : Separate hub s) (hused : ∀ key, s.assigned.get? key ≠ some a)
    (hne : a ≠ hub.address.ip) :
    Separate hub (s.create hub p a) := by
  constructor
  · intro key key' b hb hb'
    rw [assigned_create, Table.get?_set] at hb hb'
    split at hb
    · next hkey =>
      obtain rfl := Option.some.inj hb
      split at hb'
      · next hkey' => rw [hkey, hkey']
      · exact (hused key' hb').elim
    · split at hb'
      · obtain rfl := Option.some.inj hb'
        exact (hused key hb).elim
      · exact h.apart key key' b hb hb'
  · intro key b hb
    rw [assigned_create, Table.get?_set] at hb
    split at hb
    · obtain rfl := Option.some.inj hb
      exact hne
    · exact h.notHub key b hb

theorem Separate.delete (h : Separate hub s) : Separate hub (s.delete hub key) := by
  have hkept : ∀ {k b}, (s.delete hub key).assigned.get? k = some b →
      s.assigned.get? k = some b := by
    intro k b hb
    rw [assigned_delete, Table.get?_erase] at hb
    split at hb
    · cases hb
    · exact hb
  exact ⟨fun k k' b hb hb' => h.apart k k' b (hkept hb) (hkept hb'), fun k b hb =>
    h.notHub k b (hkept hb)⟩

theorem Step.separate {act : Act} (h : Step hub s act t) (hok : Unaliased hub s act)
    (hs : Settled s ∧ Separate hub s) :
    Settled t ∧ Separate hub t := by
  cases h with
  | create hnew hnext =>
    obtain ⟨hne, hunused⟩ := HubAddress.ne_ip_of_nextIP hok hnext
    exact ⟨hs.1.create hnew, hs.2.create (fun key ha => hunused (hs.1.used ha)) hne⟩
  | delete => exact ⟨hs.1.delete, hs.2.delete⟩

theorem separate_run {acts : List Act} (h : Run (Guarded (Step hub) (Unaliased hub)) s acts t)
    (hs : Settled s ∧ Separate hub s) : Settled t ∧ Separate hub t :=
  h.guarded_invariant (I := fun s => Settled s ∧ Separate hub s)
    (fun _ _ _ hstep hok => hstep.separate hok) hs

/-- The search is right except where it gives away the hub's address, and while it never does no
address is given twice. -/
theorem allocation_exact_iff (hub : Hub) :
    (∀ addrs : List String, hub.address.Exact addrs ↔ ¬ hub.address.Aliased addrs) ∧
      ∀ {s t : State} {acts : List Act}, Settled s → Separate hub s →
        Run (Guarded (Step hub) (Unaliased hub)) s acts t → Separate hub t := by
  exact ⟨fun _ => HubAddress.exact_iff_not_aliased, fun hs hsep hrun =>
    (separate_run hrun ⟨hs, hsep⟩).2⟩

/-- An interface without peers. -/
def fresh : State := ⟨.empty, .empty, .empty, .empty⟩

theorem settled_fresh : Settled fresh := ⟨⟨fun _ => rfl, nofun, nofun, nofun, nofun⟩, nofun⟩

theorem separate_fresh : Separate hub fresh := ⟨nofun, nofun⟩

theorem plainHub_len_le : 24 ≤ 32 := by decide

def plainHub : Hub := ⟨"wg0", ⟨"10.20.0.1", "24", 0x0a140001, 24, plainHub_len_le, by decide⟩⟩

/-- The same address, as `ip` and `isValidInterfaceAddress` accept it too. -/
def paddedHub : Hub := ⟨"wg0", ⟨"10.20.0.01", "24", 0x0a140001, 24, plainHub_len_le, by decide⟩⟩

def firstPeer : NewPeer := ⟨"key", none, "client", [], []⟩

theorem allocation_exact_iff_first :
    Separate plainHub (fresh.create plainHub firstPeer 0x0a140002) := by
  have hplain : plainHub.address.text = ipText plainHub.address.ip := by decide +kernel
  have hnext : plainHub.address.nextIP (fresh.used firstPeer.elsewhere) =
      some (ipText 0x0a140002) := by decide +kernel
  exact (allocation_exact_iff plainHub).2 settled_fresh separate_fresh
    (.single ⟨.create rfl hnext, fun hal => hal.padded hplain⟩)

/-- On the same address with a leading zero the first peer gets the address of the hub. -/
theorem padded_hub_shares : ¬ paddedHub.address.Exact [] ∧
    ∃ t, Step paddedHub fresh (.create firstPeer) t ∧ ¬ Separate paddedHub t := by
  have hnext : paddedHub.address.nextIP [] = some (ipText 0x0a140001) := by decide +kernel
  refine ⟨fun hexact => ?_, _, .create rfl hnext, fun hsep => ?_⟩
  · obtain ⟨a, ha, he⟩ := (hexact.found _).mp hnext
    exact ha.1.2.1 (ipText_injective he).symm
  · exact hsep.notHub "key" 0x0a140001 (by rw [assigned_create]; rfl) rfl

end FloppyGuard.WireGuard.Allocation
