import FloppyGuard.WireGuard.HubConf
import FloppyGuard.WireGuard.PeerRewrite

/-! What a hub sync writes to the conf (`_syncHubConfCore`). No peer gains an address by it. -/
namespace FloppyGuard.WireGuard

open Text

variable {ifaceName key l T : String} {conf xs : List String} {P : String → Prop}

/-- What one sync reads besides the conf; there may be no dump of the interface. -/
structure SyncReads where
  links : Table String LinkMeta
  live : Option (Table String (List String))
  physicalIfaces : List Nic

/-- A peer whose live networks differ from the conf is set again. -/
def drift (live updates : Table String (List String)) (p : String × List String) :
    Table String (List String) :=
  if (updates.get? p.1).isSome then updates
  else match live.get? p.1 with
    | none => updates
    | some liveIPs => if sortedJoin liveIPs ≠ sortedJoin p.2 then updates.set p.1 p.2 else updates

def hubUpdates (ifaceName : String) (reads : SyncReads) (peerMap : Table String (List String)) :
    Table String (List String) :=
  let updates := buildPeerUpdates peerMap reads.links ifaceName
  match reads.live with
  | none => updates
  | some live => peerMap.entries.foldl (drift live) updates

/-- `_excludeConnectedNets` -/
def excludeConnectedNets (routeNets : List String) (nics : List Nic) : List String :=
  routeNets.filter fun net => !nics.any fun nic => cidrContains nic.cidr net

def routeNets (peerMap updates : Table String (List String)) : List String :=
  ((peerMap.entries.flatMap fun p => (updates.get? p.1).getD p.2).filter fun c =>
    !isHostRoute c && isValidNetwork c).eraseDups

/-- The conf after `_syncHubConfCore`. -/
def syncHubConf (ifaceName : String) (reads : SyncReads) (conf : List String) : List String :=
  let peerMap := parsePeersFromConf conf
  let peerUpdates := hubUpdates ifaceName reads peerMap
  let allRouteNets := excludeConnectedNets (routeNets peerMap peerUpdates) reads.physicalIfaces
  rewriteHubConf
    { ifaceName
      peerUpdates
      allRouteNets
      masqueradeIfaces := masqueradeIfacesOf reads.physicalIfaces (tunnelSubnetFromConfLines conf)
        allRouteNets }
    conf

/-! What the peers of a conf list. -/

/-- Every list read so far has entries of one kind. -/
def PeerScan.Each (P : String → Prop) (s : PeerScan) : Prop :=
  (∀ key list, s.peers.get? key = some list → ∀ c ∈ list, P c) ∧ ∀ c ∈ s.currentAllowedIPs, P c

theorem PeerScan.Each.flush {s : PeerScan} (h : s.Each P) :
    ∀ key list, s.flush.get? key = some list → ∀ c ∈ list, P c := by
  intro key list hk
  unfold PeerScan.flush at hk
  split at hk
  · split at hk
    · exact h.1 key list hk
    · rw [Table.get?_set] at hk
      split at hk
      · cases hk
        exact h.2
      · exact h.1 key list hk
  · exact h.1 key list hk

/-- The entries a line of a peer adds. -/
def lineEntries (l : String) : List String :=
  match keyValue (trim l.toList) with
  | some (k, v) => if k = "AllowedIPs".toList then commaList v else []
  | none => []

theorem PeerScan.Each.line {s : PeerScan} (h : s.Each P)
    (hl : s.inPeer = true → isHeader l = false → ∀ c ∈ lineEntries l, P c) :
    (s.line l).Each P ∧ (s.line l).inPeer = if isHeader l then isPeerHeader l else s.inPeer := by
  unfold PeerScan.line
  dsimp only
  split
  · next hpeer =>
    have hpeer : isPeerHeader l = true := decide_eq_true hpeer
    exact ⟨⟨h.flush, nofun⟩, by rw [isHeader_of_isPeerHeader hpeer, if_pos rfl, hpeer]⟩
  next hnot =>
  have hnot : isPeerHeader l = false := decide_eq_false hnot
  split
  · next hhead =>
    have hhead : isHeader l = true := hhead
    exact ⟨⟨h.flush, h.2⟩, by rw [hhead, if_pos rfl, hnot]⟩
  next hhead =>
  have hhead : isHeader l = false := Bool.eq_false_iff.mpr hhead
  rw [hhead, if_neg Bool.false_ne_true]
  split
  · exact ⟨h, rfl⟩
  split
  · exact ⟨h, rfl⟩
  next k v hkv =>
  split
  · next hin =>
    split
    · exact ⟨h, rfl⟩
    split
    · next hkey =>
      refine ⟨⟨h.1, fun c hc => hl hin hhead c ?_⟩, rfl⟩
      simpa [lineEntries, hkv, hkey] using hc
    · exact ⟨h, rfl⟩
  · exact ⟨h, rfl⟩

/-- What holds of every entry in the peers' lines holds of every entry read. -/
theorem each_of_parse (h : ∀ l ∈ peerLines conf, ∀ c ∈ lineEntries l, P c) :
    ∀ key list, (parsePeersFromConf conf).get? key = some list → ∀ c ∈ list, P c := by
  have hinit : PeerScan.init.Each P := ⟨nofun, nofun⟩
  exact (foldl_peerLines PeerScan.inPeer (fun _ _ hs hl => hs.line hl) hinit h).flush

theorem lineEntries_of_free (h : listsAddress T l = false) :
    ∀ c ∈ lineEntries l, Trimmed c ∧ c ≠ T := by
  intro c hc
  unfold lineEntries at hc
  unfold listsAddress at h
  cases hkv : keyValue (trim l.toList) with
  | none => simp [hkv] at hc
  | some p =>
    obtain ⟨k, v⟩ := p
    rw [hkv] at hc h
    dsimp only at hc h
    split at hc
    · next hkey =>
      refine ⟨trimmed_commaList c hc, ?_⟩
      rintro rfl
      rw [hkey, decide_eq_true (by decide), Bool.true_and, decide_eq_true hc] at h
      cases h
    · simp at hc

/-! What a sync writes to a peer. -/

/-- The stored networks are in the form `sanitizeNetworkArray` stores them. -/
def Sanitized (links : Table String LinkMeta) : Prop :=
  ∀ id entry nets, links.get? id = some entry → entry.importedNetworks = some nets →
    ∀ n ∈ nets, ∃ c : Cidr, c.render = n

theorem trimmed_render (c : Cidr) : Trimmed c.render := by
  have htext : c.render.toList = c.toText := String.toList_ofList
  refine ⟨⟨fun he => ?_, fun hc => ?_⟩, ?_⟩
  · have hslash : '/' ∈ c.render.toList := by
      rw [htext, Cidr.toText]
      simp
    rw [he] at hslash
    simp at hslash
  · rcases mem_toText (htext ▸ hc) with h | h | h <;> revert h <;> decide
  · rw [htext, trim_of_forall isSpace_of_mem_toText]

/-- A new list is the host routes of the old one, and networks of the old one or of the entry. -/
theorem peerUpdate_cases {entry : LinkMeta} {current newIPs : List String}
    (h : peerUpdate entry current = some newIPs) :
    ∃ nets, newIPs = (current.filter isHostRoute ++ nets).eraseDups ∧ ∀ c ∈ nets,
    isHostRoute c = false ∧
      (c ∈ current ∨ ∃ stored, entry.importedNetworks = some stored ∧ c ∈ stored) := by
  have hnew : ∀ {nets : List String},
    (if sortedJoin nets ≠ sortedJoin current then some nets else none) = some newIPs →
      newIPs = nets := by
    intro nets hif
    split at hif
    · exact (Option.some.inj hif).symm
    · cases hif
  unfold peerUpdate at h
  have h := hnew h
  split at h
  · exact ⟨[], by rw [h, List.append_nil], List.forall_mem_nil _⟩
  · refine ⟨_, h, fun c hc => ?_⟩
    split at hc
    · next hsome =>
      obtain ⟨nets, hnets⟩ := Option.isSome_iff_exists.mp hsome
      obtain ⟨hc, hok⟩ := List.mem_filter.mp hc
      rw [hnets] at hc
      exact ⟨by simpa using (Bool.and_eq_true_iff.mp hok).1, .inr ⟨nets, hnets, hc⟩⟩
    · obtain ⟨hc, hnot⟩ := List.mem_filter.mp hc
      exact ⟨by simpa using hnot, .inl hc⟩

/-- An entry of the new list was in the old one, or is a stored network. -/
theorem mem_peerUpdate {entry : LinkMeta} {current newIPs : List String}
    (h : peerUpdate entry current = some newIPs) :
    ∀ c ∈ newIPs, c ∈ current ∨ isHostRoute c = false ∧ ∃ nets, entry.importedNetworks = some nets ∧
    c ∈ nets := by
  obtain ⟨nets, rfl, hnets⟩ := peerUpdate_cases h
  intro c hc
  rcases List.mem_append.mp (List.mem_eraseDups.mp hc) with hc | hc
  · exact .inl (List.mem_filter.mp hc).1
  · exact (hnets c hc).2.imp_right fun hstored => ⟨(hnets c hc).1, hstored⟩

theorem get?_drift {peerMap live updates : Table String (List String)} {list : List String}
    (h : (peerMap.entries.foldl (drift live) updates).get? key = some list) :
    updates.get? key = some list ∨ peerMap.get? key = some list := by
  refine List.foldlRecOn (motive := fun u : Table String (List String) => ∀ list,
    u.get? key = some list →
    updates.get? key = some list ∨ peerMap.get? key = some list) peerMap.entries _ (fun _ => .inl)
    (fun u hu p hp list hlist => ?_) list h
  unfold drift at hlist
  split at hlist
  · exact hu list hlist
  split at hlist
  · exact hu list hlist
  split at hlist
  · rw [Table.get?_set] at hlist
    split at hlist
    · next hkey =>
      rw [hkey, ← hlist]
      exact .inr (Table.get?_of_mem hp)
    · exact hu list hlist
  · exact hu list hlist

/-- No update gives a peer a host address the conf does not list. -/
theorem hubUpdates_free {reads : SyncReads} (h : Free T conf) (hhost : isHostRoute T = true)
    (hstored : Sanitized reads.links) {list : List String}
    (hget : (hubUpdates ifaceName reads (parsePeersFromConf conf)).get? key = some list) :
    ∀ c ∈ list, Trimmed c ∧ c ≠ T := by
  have hparsed := each_of_parse (P := fun c => Trimmed c ∧ c ≠ T) fun l hl =>
    lineEntries_of_free (h l hl)
  have hbuilt : ∀ list, (buildPeerUpdates (parsePeersFromConf conf) reads.links ifaceName).get?
    key = some list →
      ∀ c ∈ list, Trimmed c ∧ c ≠ T := by
    intro list hlist c hc
    rw [buildPeerUpdates, Table.get?_filterMap] at hlist
    obtain ⟨current, hcurrent, hlist⟩ := Option.bind_eq_some_iff.mp hlist
    obtain ⟨entry, hentry, hlist⟩ := Option.bind_eq_some_iff.mp hlist
    rcases mem_peerUpdate hlist c hc with hc | ⟨hnothost, nets, hnets, hc⟩
    · exact hparsed key current hcurrent c hc
    · obtain ⟨block, rfl⟩ := hstored _ entry nets hentry hnets c hc
      refine ⟨trimmed_render block, ?_⟩
      rintro rfl
      rw [hhost] at hnothost
      cases hnothost
  unfold hubUpdates at hget
  dsimp only at hget
  split at hget
  · exact hbuilt list hget
  · rcases get?_drift hget with hget | hget
    · exact hbuilt list hget
    · exact hparsed key list hget

/-! The lines a sync writes. -/

/-- A list of networks as the hub writes it is read back. -/
theorem listsAddress_allowedIPs {newIPs : List String} (h : ∀ c ∈ newIPs, Trimmed c ∧ c ≠ T) :
    isHeader ("AllowedIPs = " ++ ", ".intercalate newIPs) = false ∧
      listsAddress T ("AllowedIPs = " ++ ", ".intercalate newIPs) = false := by
  have htrimmed : ∀ c ∈ newIPs, Trimmed c := fun c hc => (h c hc).1
  obtain ⟨v, hkv, hv⟩ : ∃ v, keyValue (trim ("AllowedIPs = " ++ ", ".intercalate newIPs).toList) =
      some ("AllowedIPs".toList, v) ∧ commaList v = newIPs := by
    by_cases hnil : newIPs = []
    · subst hnil
      exact ⟨[], by decide, by decide⟩
    have hread := commaList_join htrimmed
    have htext := trim_join htrimmed
    generalize (", ".intercalate newIPs) = text at hread htext ⊢
    have hne : text.toList ≠ [] := by
      intro he
      rw [he] at hread
      exact hnil (hread.symm.trans (by decide))
    have hline : trim ("AllowedIPs = " ++ text).toList = "AllowedIPs = ".toList ++ text.toList := by
      rw [String.toList_append]
      refine trim_append hne ?_ ?_
      · rw [← htext]
        exact head?_trim
      · rw [← htext]
        exact getLast?_trim
    refine ⟨text.toList, ?_, hread⟩
    have hvalue : trim (' ' :: text.toList) = text.toList := by
      rw [trim, List.dropWhile_cons_of_pos (by decide)]
      exact htext
    rw [hline, keyValue, if_pos (by simp)]
    change some ("AllowedIPs".toList, trim (' ' :: text.toList)) = _
    rw [hvalue]
  constructor
  · obtain ⟨t, ht⟩ :=
      trim_cons (c := 'A') (by decide) ("llowedIPs = ".toList ++ (", ".intercalate newIPs).toList)
    rw [isHeader, String.toList_append]
    change startsWith "[" (trim ('A' :: ("llowedIPs = ".toList ++ _))) = false
    rw [ht]
    rfl
  · rw [listsAddress, hkv]
    dsimp only
    rw [hv, decide_eq_false fun hT => (h T hT).2 rfl, Bool.and_false]

/-- The hub's own lines: the marker and the hooks. -/
theorem plain_marker (nics : List Nic) :
    isHeader (masqMarkerLine nics) = false ∧ listsAddress T (masqMarkerLine nics) = false :=
  plain_of_head (c := '#') String.toList_append (by decide)

theorem plain_hook {inp : HubInput} {isUp : Bool} {owned : List String} :
    isHeader (hookLine inp owned isUp l) = false ∧
      listsAddress T (hookLine inp owned isUp l) = false := by
  cases isUp with
  | false => exact plain_of_head (c := 'P') String.toList_append (by decide)
  | true => exact plain_of_head (c := 'P') String.toList_append (by decide)

/-- What the scan has written gives no peer the address, and is inside a peer when the scan is. -/
structure FreeScan (T : String) (s : HubScan) : Prop where
  free : Free T s.out
  inPeer : inPeerAfter false s.out = s.inPeer

theorem inPeerAfter_append (b : Bool) :
    inPeerAfter b (conf ++ xs) = inPeerAfter (inPeerAfter b conf) xs := List.foldl_append ..

theorem FreeScan.plain {s : HubScan} (h : FreeScan T s) (hx : ∀ l ∈ xs, isHeader l = false)
    (hfree : s.inPeer = true → ∀ l ∈ xs, listsAddress T l = false) {key : Option String}
    {written : Bool} :
    FreeScan T ⟨s.inPeer, key, written, s.out ++ xs⟩ := by
  constructor
  · intro l hl
    rw [peerLines, peerLinesFrom_append, peerLinesFrom_plain hx, h.inPeer] at hl
    rcases List.mem_append.mp hl with hl | hl
    · exact h.free l hl
    · split at hl
      · next hin => exact hfree hin l hl
      · simp at hl
  · rw [inPeerAfter_append, inPeerAfter_plain hx, h.inPeer]

theorem FreeScan.header {s : HubScan} (h : FreeScan T s) (hl : isHeader l = true) {written : Bool} :
    FreeScan T ⟨isPeerHeader l, none, written, s.out ++ [l]⟩ := by
  constructor
  · exact h.free.block hl (List.forall_mem_nil _) fun _ => List.forall_mem_nil _
  · rw [inPeerAfter_append, inPeerAfter, List.foldl_cons, if_pos hl]
    rfl

theorem FreeScan.line {inp : HubInput} {owned : List String} {s : HubScan} (h : FreeScan T s)
    (hl : s.inPeer = true → isHeader l = false → listsAddress T l = false)
    (hupdates : ∀ key newIPs, inp.peerUpdates.get? key = some newIPs → ∀ c ∈ newIPs, Trimmed c ∧
      c ≠ T) :
    FreeScan T (s.line inp owned l) ∧
      (s.line inp owned l).inPeer = if isHeader l then isPeerHeader l else s.inPeer := by
  unfold HubScan.line
  dsimp only
  split
  · next hmarker =>
    have hhead : isHeader l = false := by
      obtain ⟨-, hmarker⟩ := Bool.and_eq_true_iff.mp hmarker
      unfold masqMarker at hmarker
      split at hmarker
      · next rest htrim =>
        rw [isHeader, htrim]
        rfl
      · cases hmarker
    exact ⟨h, by rw [hhead, if_neg Bool.false_ne_true]⟩
  split
  · next hpeer =>
    have hpeer : isPeerHeader l = true := decide_eq_true hpeer
    have hhead := isHeader_of_isPeerHeader hpeer
    rw [if_pos hhead]
    exact ⟨hpeer ▸ h.header hhead, hpeer.symm⟩
  next hnot =>
  have hnot : isPeerHeader l = false := decide_eq_false hnot
  split
  · next hhead =>
    have hhead : isHeader l = true := hhead
    rw [if_pos hhead]
    exact ⟨hnot ▸ h.header hhead, hnot.symm⟩
  next hhead =>
  have hhead : isHeader l = false := Bool.eq_false_iff.mpr hhead
  have hplain : ∀ m ∈ [l], isHeader m = false := fun m hm => List.mem_singleton.mp hm ▸ hhead
  have hfree : s.inPeer = true → ∀ m ∈ [l], listsAddress T m = false :=
    fun hin m hm => List.mem_singleton.mp hm ▸ hl hin hhead
  rw [hhead, if_neg Bool.false_ne_true]
  split
  · exact ⟨h.plain hplain hfree, rfl⟩
  split
  · split
    · next newIPs hnew =>
      obtain ⟨key, -, hkey⟩ := Option.bind_eq_some_iff.mp hnew
      have hline := listsAddress_allowedIPs (hupdates key newIPs hkey)
      refine ⟨h.plain (fun m hm => ?_) fun _ m hm => ?_, rfl⟩
      · exact List.mem_singleton.mp hm ▸ hline.1
      · exact List.mem_singleton.mp hm ▸ hline.2
    · exact ⟨h.plain hplain hfree, rfl⟩
  split
  · next hhook =>
    have hout : s.inPeer = false := by simpa using (Bool.and_eq_true_iff.mp hhook).1
    rw [List.append_assoc]
    refine ⟨h.plain (fun m hm => ?_) fun hin => ?_, rfl⟩
    · rcases List.mem_append.mp hm with hm | hm
      · split at hm
        · exact List.mem_singleton.mp hm ▸ (plain_marker (T := T) inp.masqueradeIfaces).1
        · simp at hm
      · exact List.mem_singleton.mp hm ▸ (plain_hook (T := T)).1
    · rw [hout] at hin
      cases hin
  · exact ⟨h.plain hplain hfree, rfl⟩

/-- Lines put in between two others. -/
theorem Free.insert {ys zs : List String} (h : Free T (xs ++ ys))
    (hz : ∀ l ∈ zs, isHeader l = false ∧ listsAddress T l = false) : Free T (xs ++ zs ++ ys) := by
  have hx : Free T xs := h.of_prefix (List.prefix_append xs ys)
  intro l hl
  rw [peerLines, peerLinesFrom_append] at hl
  rcases List.mem_append.mp hl with hl | hl
  · exact hx.append hz l hl
  · rw [inPeerAfter_append, inPeerAfter_plain fun m hm => (hz m hm).1] at hl
    refine h l ?_
    rw [peerLines, peerLinesFrom_append]
    exact List.mem_append_right _ hl

/-- A rewrite whose updates leave the address out gives no peer the address. -/
theorem Free.rewriteHubConf {inp : HubInput} (h : Free T conf)
    (hupdates : ∀ key newIPs, inp.peerUpdates.get? key = some newIPs → ∀ c ∈ newIPs, Trimmed c ∧
      c ≠ T) :
    Free T (rewriteHubConf inp conf) := by
  have hinit : FreeScan T ⟨false, none, false, []⟩ := ⟨nofun, rfl⟩
  have hscan := (foldl_peerLines HubScan.inPeer (f := HubScan.line inp (inp.ownedMasq conf))
    (fun _ _ hs hl => hs.line hl hupdates) hinit h).free
  rw [WireGuard.rewriteHubConf, injectHooks]
  dsimp only
  split
  · refine Free.insert (by rwa [List.take_append_drop]) fun l hl => ?_
    rcases List.mem_append.mp hl with hl | hl
    · split at hl
      · simp at hl
      · rcases List.mem_cons.mp hl with rfl | hl
        · exact plain_marker _
        · rw [List.mem_singleton.mp hl]
          exact plain_of_head (c := 'P') String.toList_append (by decide)
    · split at hl
      · simp at hl
      · rw [List.mem_singleton.mp hl]
        exact plain_of_head (c := 'P') String.toList_append (by decide)
  · exact hscan

theorem Free.syncHubConf {reads : SyncReads} (h : Free T conf) (hhost : isHostRoute T = true)
    (hstored : Sanitized reads.links) : Free T (syncHubConf ifaceName reads conf) :=
  h.rewriteHubConf fun _ _ hget => hubUpdates_free h hhost hstored hget

end FloppyGuard.WireGuard
