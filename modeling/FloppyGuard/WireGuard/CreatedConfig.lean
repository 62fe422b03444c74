import FloppyGuard.WireGuard.Allocation
import FloppyGuard.WireGuard.ClientFile

/-! The config that `createPeer` hands out, beside the one of the next download. -/
namespace FloppyGuard.WireGuard.ClientFile

open Text Patch KeyRotation
open AgentSync (quickLines textLines)

/-- `iface.listenPort || 51820` -/
def createPort (listenPort : Option ℕ) : ℕ := (listenPort.filter (· ≠ 0)).getD 51820

/-- `iface?.listenPort ?? 51820` -/
def downloadPort (listenPort : Option ℕ) : ℕ := listenPort.getD 51820

/-- The conf, the links in the metadata store, and the live interface. -/
structure Peers where
  conf : String
  links : Entries
  live : Table String (List String)

/-- A request for a client link. -/
structure PeerRequest where
  name : Option String
  dns : Js
  fullTunnel : Js
  platform : Option String
  importedNetworks : Js

/-- The fields that `createPeer` stores. -/
def linkPatch (r : Request) : String → Option Js
  | "name" => some (((r.name.filter (· ≠ "")).map Js.str).getD .undefined)
  | "type" => some (.str "client")
  | "importedNetworks" => some (.array (r.importedNets.map .str))
  | "dns" => some (.array (r.dnsList.map .str))
  | "fullTunnel" => some (.bool r.fullTunnel)
  | "platform" => some (((r.platform.filter (· ≠ "")).map Js.str).getD .undefined)
  | _ => none

/-- What `createPeer` appends to the conf. -/
def peerBlock (name : Option String) (publicKey hubAllowedIPs : String) : String :=
  "\n".intercalate ["", "# " ++ stripLinkNameControlChars ((name.filter (· ≠ "")).getD "new-peer"),
    "[Peer]", "PublicKey = " ++ publicKey,
    "AllowedIPs = " ++ hubAllowedIPs, ""]

structure Created where
  linkId : String
  config : PeerConfig
  peers : Peers

section Calls

variable (surroundings : HubWorld) (env : String) (iface : Patch.Entry) (listenPort : Option ℕ)

/-- The lists of a request, sanitized. -/
def sanitizeRequest (isIP : String → Bool) (r : PeerRequest) : Except String Request :=
  if r.name.all isSafeLinkName then do
    let dnsList ← sanitizeDnsArray isIP r.dns
    let importedNets ← sanitizeNetworkArray r.importedNetworks
    pure ⟨r.name, dnsList, r.fullTunnel.truthy, r.platform, importedNets⟩
  else throw "Invalid name — control characters (including newlines) are not allowed"

/-- `createPeer` for a client link; `otherAddresses` are those of the links of other interfaces. -/
def createPeer (p : Peers) (otherAddresses : List String) (request : PeerRequest)
    (privateKey : String) : Except String Created := do
  let w := reads surroundings p.conf env iface
  let r ← sanitizeRequest w.isIP request
  let publicKey := w.derivePublicKey privateKey
  let id := linkId w.ifaceName publicKey
  let links := statusLinks w.ifaceName (linkEntries p.links) p.live
  match hubAddress? w.ifaceAddresses with
  | none =>
    throw ("Interface " ++ w.ifaceName ++ " has an invalid address: " ++
      (w.ifaceAddresses.head?.getD "undefined"))
  | some hub =>
    match hub.nextIP (Allocation.tunnelAddresses p.live ++ otherAddresses) with
    | none => throw "No free tunnel IPs available in subnet"
    | some nextIP =>
      let sanitized ← sanitizePatch (linkFields w.isIP) (.object (linkPatch r))
      pure
        { linkId := id
          config := buildClientConfig { w with hubListenPort := createPort listenPort } publicKey
            (createInput w r privateKey nextIP links)
          peers :=
            { conf := p.conf ++ peerBlock r.name publicKey (nextIP ++ "/32")
              links := p.links.set id (mergeMetadataEntry .empty sanitized)
              live := KeyRotation.addPeer p.live publicKey [nextIP ++ "/32"] } }

/-- `_generatePeerConfigUncached` with a new key; nothing else changes while it runs. The key is
only swapped where the conf could be rewritten. -/
def download (p : Peers) (id privateKey : String) (rewritten : Bool) : Option PeerConfig :=
  let w := reads surroundings p.conf env iface
  let store := linkEntries p.links
  let status := statusLinks w.ifaceName store p.live
  (status.find? (·.id = id)).map fun link =>
    let d : Draft := ⟨store, status, link, privateKey⟩
    let w' := { w with hubListenPort := downloadPort listenPort }
    let rotated := link.peerPublicKey ≠ "" && link.peerPublicKey ≠ d.newPubKey w' && rewritten
    d.config w' id rotated (if rotated then moveLink store id (d.newLinkId w') else store)

end Calls

/-- The title, the private key and the comment with the public key. -/
def keyFronts : List String := ["# WireGuard peer config — ", "PrivateKey = ", "# PublicKey = "]

def SameLine (l l' : List Char) : Prop := l = l' ∨ ∃ f ∈ keyFronts, f.toList <+: l ∧ f.toList <+: l'

/-- Equal line by line, but for the keys and the title. -/
def SameButKeys (content content' : String) : Prop :=
  List.Forall₂ SameLine (quickLines content) (quickLines content')

variable {w surroundings : HubWorld} {env : String} {iface : Patch.Entry} {listenPort : Option ℕ}
  {p : Peers} {otherAddresses : List String} {request : PeerRequest} {r : Request}
  {privateKey newKey : String} {created : Created} {file : PeerConfig} {rewritten : Bool}
    {inp : ClientConfigInput}

/-! What is stored of a request. -/

theorem sanitizeRequest_spec {isIP : String → Bool} (h : sanitizeRequest isIP request = .ok r) :
    (∀ name ∈ r.name, isSafeLinkName name = true) ∧
    sanitizeDnsArray isIP request.dns = .ok r.dnsList ∧
      sanitizeNetworkArray request.importedNetworks = .ok r.importedNets := by
  unfold sanitizeRequest at h
  split at h
  · next hsafe =>
    obtain ⟨dnsList, hdns, h⟩ := Checked.bind_eq_ok.mp h
    obtain ⟨nets, hnets, h⟩ := Checked.bind_eq_ok.mp h
    cases h
    refine ⟨fun name hname => ?_, hdns, hnets⟩
    change name ∈ request.name at hname
    rw [Option.mem_def.mp hname] at hsafe
    exact hsafe
  · cases h

theorem dns_again {isIP : String → Bool} {v : Js} {xs : List String}
    (h : sanitizeDnsArray isIP v = .ok xs) :
    sanitizeDnsArray isIP (.array (xs.map .str)) = .ok xs := by
  unfold sanitizeDnsArray at h
  split at h
  · cases h
    rfl
  · cases h
    rfl
  · exact sanitizeItems_again (fun _ _ => dnsItem_again) h
  · cases h

theorem networks_again {v : Js} {xs : List String} (h : sanitizeNetworkArray v = .ok xs) :
    sanitizeNetworkArray (.array (xs.map .str)) = .ok xs := by
  unfold sanitizeNetworkArray at h
  split at h
  · exact sanitizeItems_again (fun _ _ => networkItem_again) h
  · cases h
    rfl

/-- The name as it is stored. -/
def storedName (r : Request) : Option Value :=
  ((r.name.filter (· ≠ "")).map stripLinkNameControlChars).map Value.text

/-- The platform as it is stored. -/
def storedPlatform (r : Request) : Option Value :=
  (r.platform.filter (· ∈ ["desktop", "mobile"])).map Value.text

theorem sanitize_linkPatch {isIP : String → Bool}
    (hdns : sanitizeDnsArray isIP (.array (r.dnsList.map .str)) = .ok r.dnsList)
    (hnets : sanitizeNetworkArray (.array (r.importedNets.map .str)) = .ok r.importedNets) :
    sanitizePatch (linkFields isIP) (.object (linkPatch r)) =
      .ok [("name", storedName r), ("type", some (.text "client")),
      ("importedNetworks", some (.texts r.importedNets)), ("dns", some (.texts r.dnsList)),
      ("fullTunnel", some (.flag r.fullTunnel)),
      ("platform", storedPlatform r)] := by
  have hname : textField (fun name => some (stripLinkNameControlChars name))
    (((r.name.filter (· ≠ "")).map Js.str).getD .undefined) =
      .ok (storedName r) := by
    unfold storedName
    cases hn : r.name.filter (· ≠ "") with
    | none => rfl
    | some name =>
      have hne : name ≠ "" := by simpa using (Option.filter_eq_some_iff.mp hn).2
      change (optionalText (.str name)).map _ = _
      rw [optionalText_str hne]
      rfl
  have hplatform : platform (((r.platform.filter (· ≠ "")).map Js.str).getD .undefined) =
      .ok (storedPlatform r) := by
    unfold storedPlatform
    cases r.platform with
    | none => rfl
    | some s =>
      by_cases hs : s = ""
      · rw [hs]
        rfl
      · rw [Option.filter_some, if_pos (decide_eq_true hs), Option.filter_some]
        change platform (.str s) = _
        rw [platform]
        by_cases hmem : s ∈ ["desktop", "mobile"]
        · rw [if_pos hmem, if_pos (decide_eq_true hmem)]
          rfl
        · rw [if_neg hmem, if_neg (by simpa using hmem)]
          rfl
  have hdnsField : listField (sanitizeDnsArray isIP) (.array (r.dnsList.map .str)) =
      .ok (some (.texts r.dnsList)) := by
    rw [listField, hdns]
    rfl
  have hnetsField : listField sanitizeNetworkArray (.array (r.importedNets.map .str)) =
      .ok (some (.texts r.importedNets)) := by
    rw [listField, hnets]
    rfl
  simp only [sanitizePatch, linkFields, sanitizeFields, linkPatch, hname, hplatform, hdnsField,
    hnetsField]
  rfl

/-- The entry that `createPeer` stores. -/
def storedEntry (r : Request) : Patch.Entry :=
  mergeMetadataEntry .empty [("name", storedName r), ("type", some (.text "client")),
  ("importedNetworks", some (.texts r.importedNets)), ("dns", some (.texts r.dnsList)),
    ("fullTunnel", some (.flag r.fullTunnel)),
  ("platform", storedPlatform r)]

theorem get?_storedEntry (key : String) : (storedEntry r).get? key =
    if key = "platform" then storedPlatform r else if key = "fullTunnel" then
      some (.flag r.fullTunnel)
    else if key = "dns" then some (.texts r.dnsList) else if key = "importedNetworks" then
      some (.texts r.importedNets)
    else if key = "type" then some (.text "client") else if key = "name" then storedName r
    else none := by
  simp only [storedEntry, mergeMetadataEntry, List.foldl_cons, List.foldl_nil, get?_applyField,
    Table.get?_empty]

/-- The link as it is read again. -/
structure StoredAs (r : Request) (e : LinkEntry) : Prop where
  name : ∀ name ∈ e.name, ∀ c ∈ name.toList, isControlChar c = false
  imported : e.importedNetworks = some r.importedNets
  dns : e.dns = r.dnsList
  fullTunnel : e.fullTunnel = r.fullTunnel
  platform : e.platform = r.platform.filter (· ∈ ["desktop", "mobile"])

theorem storedAs_storedEntry (r : Request) : StoredAs r (linkEntry (storedEntry r)) := by
  have hget := get?_storedEntry (r := r)
  constructor
  · intro name hname c hc
    have hstored := textAt_eq_some (show textAt (storedEntry r) "name" = some name from hname)
    rw [hget "name", if_neg (by decide), if_neg (by decide), if_neg (by decide), if_neg (by decide),
      if_neg (by decide),
      if_pos rfl, storedName] at hstored
    cases hn : r.name.filter (· ≠ "") with
    | none =>
      rw [hn] at hstored
      cases hstored
    | some raw =>
      rw [hn] at hstored
      have hname : stripLinkNameControlChars raw = name := by simpa using hstored
      rw [← hname, stripLinkNameControlChars, String.toList_ofList] at hc
      simpa using (List.mem_filter.mp hc).2
  · simp [linkEntry, textsAt, hget]
  · simp [linkEntry, textsAt, hget]
  · simp [linkEntry, flagAt, hget]
  · have hplatform : (storedEntry r).get? "platform" = storedPlatform r := hget "platform"
    change textAt (storedEntry r) "platform" = _
    rw [textAt, hplatform, storedPlatform]
    cases hp : r.platform.filter (· ∈ ["desktop", "mobile"]) with
    | none => rfl
    | some s =>
      have hs : s ∈ ["desktop", "mobile"] := by simpa using (Option.filter_eq_some_iff.mp hp).2
      clear hp hplatform
      revert s
      decide

/-! The two calls. -/

/-- The arguments of the download. -/
structure DownloadOf (w : HubWorld) (r : Request) (key nextIP : String) (links : List LinkRecord)
    (inp : ClientConfigInput) : Prop where
  displayName : '\n' ∉ w.ifaceName.toList → '\n' ∉ key.toList → '\n' ∉ inp.displayName.toList
  publicKey : inp.publicKey = some (w.derivePublicKey inp.privateKey)
  tunnelAddress : inp.tunnelAddress = some (nextIP ++ "/32")
  linkDns : inp.linkDns = r.dnsList
  fullTunnel : inp.fullTunnel = r.fullTunnel
  platform : inp.platform = r.platform.filter (· ∈ ["desktop", "mobile"])
  importedNets : inp.importedNets = r.importedNets
  exported : (inp.links.filter (·.id ≠ inp.excludeLinkId)).flatMap LinkRecord.exportedNetworks =
    (links.filter (·.id ≠ linkId w.ifaceName key)).flatMap LinkRecord.exportedNetworks

theorem createPeer_spec (hw : w = reads surroundings p.conf env iface)
    (h : createPeer surroundings env iface listenPort p otherAddresses request privateKey =
      .ok created) :
    ∃ r hub nextIP, sanitizeRequest w.isIP request = .ok r ∧
    hubAddress? w.ifaceAddresses = some hub ∧
      hub.nextIP (Allocation.tunnelAddresses p.live ++ otherAddresses) = some nextIP ∧
      created =
        { linkId := linkId w.ifaceName (w.derivePublicKey privateKey)
          config :=
            buildClientConfig { w with hubListenPort := createPort listenPort }
              (w.derivePublicKey privateKey)
            (createInput w r privateKey nextIP
              (statusLinks w.ifaceName (linkEntries p.links) p.live))
          peers :=
            { conf := p.conf ++ peerBlock r.name (w.derivePublicKey privateKey) (nextIP ++ "/32")
              links :=
                p.links.set (linkId w.ifaceName (w.derivePublicKey privateKey)) (storedEntry r)
              live := KeyRotation.addPeer p.live (w.derivePublicKey privateKey) [nextIP ++ "/32"] }
                } := by
  rw [createPeer, ← hw] at h
  obtain ⟨r, hr, h⟩ := Checked.bind_eq_ok.mp h
  obtain ⟨-, hdns, hnets⟩ := sanitizeRequest_spec hr
  dsimp only at h
  split at h
  · cases h
  · next hub hhub =>
    split at h
    · cases h
    · next nextIP hnext =>
      rw [sanitize_linkPatch (dns_again hdns) (networks_again hnets)] at h
      cases h
      exact ⟨r, hub, nextIP, hr, hhub, hnext, rfl⟩

/-- The networks that the links beside one export, by the keys of the interface. -/
theorem exported_statusLinks (ifaceName key : String) (store : Table String LinkEntry)
    (live : Table String (List String)) :
    ((statusLinks ifaceName store live).filter (·.id ≠ linkId ifaceName key)).flatMap
      LinkRecord.exportedNetworks =
      (live.erase key).keys.flatMap fun k =>
        ((store.get? (linkId ifaceName k)).getD .blank).exportedNetworks := by
  have hfilter : (statusLinks ifaceName store live).filter (·.id ≠ linkId ifaceName key) =
      (live.entries.filter (·.1 ≠ key)).map fun q =>
        buildLinkRecord ifaceName ⟨q.1, q.2⟩ ((store.get? (linkId ifaceName q.1)).getD .blank) := by
    rw [statusLinks, List.filter_map]
    refine congrArg _ (List.filter_congr fun q _ => decide_eq_decide.mpr ?_)
    exact (linkId_injective ifaceName).ne_iff
  rw [hfilter, Table.keys, Table.entries_erase, List.flatMap_map, List.flatMap_map]
  rfl

theorem keys_erase_addPeer (live : Table String (List String)) (key : String) (ips : List String) :
    ((KeyRotation.addPeer live key ips).erase key).keys = (live.erase key).keys := by
  have hkeys (t : Table String (List String)) : (t.erase key).keys = t.keys.filter (· ≠ key) := by
    rw [Table.keys, Table.entries_erase, Table.keys, List.filter_map]
    rfl
  rw [KeyRotation.addPeer, Table.erase_set_self, hkeys, hkeys, Table.keys_filterMap_some]

/-- The networks of the other links are what they were. -/
theorem exported_addPeer (ifaceName key : String) (e : Patch.Entry) (links : Entries)
    (live : Table String (List String)) (ips : List String) :
    ((statusLinks ifaceName (linkEntries (links.set (linkId ifaceName key) e))
      (KeyRotation.addPeer live key ips)).filter
      (·.id ≠ linkId ifaceName key)).flatMap LinkRecord.exportedNetworks =
    ((statusLinks ifaceName (linkEntries links) live).filter (·.id ≠ linkId ifaceName key)).flatMap
      LinkRecord.exportedNetworks := by
  rw [exported_statusLinks, exported_statusLinks, keys_erase_addPeer]
  refine List.flatMap_congr fun k hk => ?_
  obtain ⟨ips', hips⟩ := Table.mem_keys.mp hk
  have hne : k ≠ key := by
    rintro rfl
    rw [Table.get?_erase, if_pos rfl] at hips
    cases hips
  have hid : linkId ifaceName k ≠ linkId ifaceName key := (linkId_injective ifaceName).ne hne
  rw [linkEntries, linkEntries, Table.get?_filterMap, Table.get?_filterMap, Table.get?_set,
    if_neg hid]

/-- The new link in the status. -/
theorem find_created (ifaceName key : String) (store : Table String LinkEntry)
    (live : Table String (List String)) (ips : List String) :
    (statusLinks ifaceName store (KeyRotation.addPeer live key ips)).find?
    (·.id = linkId ifaceName key) =
      some (buildLinkRecord ifaceName ⟨key, ips⟩
          ((store.get? (linkId ifaceName key)).getD .blank)) := by
  rw [find_statusLinks, Allocation.get?_addPeer, if_pos rfl]
  rfl

/-- The record of a client that has nothing but its tunnel address. -/
theorem tunnelAddresses_created (ifaceName key nextIP : String) (e : LinkEntry) :
    (buildLinkRecord ifaceName ⟨key, [nextIP ++ "/32"]⟩ e).tunnelAddresses = [nextIP ++ "/32"] ∧
      (e.importedNetworks = some [] →
        (buildLinkRecord ifaceName ⟨key, [nextIP ++ "/32"]⟩ e).importedNetworks = []) := by
  have hne : nextIP ++ "/32" ≠ "" := by
    intro he
    have hlist := congrArg String.toList he
    rw [String.toList_append] at hlist
    exact absurd (List.append_eq_nil_iff.mp hlist).2 (by decide)
  constructor
  · simp [buildLinkRecord, isHostRoute_32, dedupe, hne, List.eraseDups_cons]
  · intro hstored
    simp [buildLinkRecord, hstored, isHostRoute_32, dedupe]

theorem meta_moved {links : Table String LinkEntry} {id newId : String} {e : LinkEntry}
    (he : links.get? id = some e) (b : Bool)
    (hne : b = true → newId ≠ id) :
    (((if b then moveLink links id newId else links).get? (if b then newId else id)).or
      ((if b then moveLink links id newId else links).get? id)).getD .blank = e := by
  cases b with
  | false =>
    rw [if_neg Bool.false_ne_true, if_neg Bool.false_ne_true, he]
    rfl
  | true =>
    have hmoved : (moveLink links id newId).get? newId = some e := by
      rw [moveLink, he]
      change ((links.set newId e).erase id).get? newId = some e
      rw [Table.get?_erase, if_neg (hne rfl), Table.get?_set, if_pos rfl]
    rw [if_pos rfl, if_pos rfl, hmoved]
    rfl

theorem download_spec {nextIP key conf : String} (hw : w = reads surroundings conf env iface)
    (hd : download surroundings env iface listenPort
      { conf
        links := p.links.set (linkId w.ifaceName key) (storedEntry r)
        live := KeyRotation.addPeer p.live key [nextIP ++ "/32"] }
      (linkId w.ifaceName key) newKey rewritten = some file) :
    ∃ inp, file = buildClientConfig { w with hubListenPort := downloadPort listenPort }
      (w.derivePublicKey newKey) inp ∧
      inp.privateKey = newKey ∧
        DownloadOf w r key nextIP (statusLinks w.ifaceName (linkEntries p.links) p.live) inp := by
  have hentry : (linkEntries (p.links.set (linkId w.ifaceName key) (storedEntry r))).get?
    (linkId w.ifaceName key) =
      some (linkEntry (storedEntry r)) := by
    rw [linkEntries, Table.get?_filterMap, Table.get?_set, if_pos rfl]
    rfl
  have hstored := storedAs_storedEntry r
  rw [download] at hd
  dsimp only at hd
  rw [← hw, find_created, hentry, Option.getD_some, Option.map_some, Option.some.injEq] at hd
  obtain ⟨htunnel, hnets⟩ :=
    tunnelAddresses_created w.ifaceName key nextIP (linkEntry (storedEntry r))
  rw [config_eq, meta_moved hentry _ fun hb => ?_] at hd
  · refine ⟨_, hd.symm, rfl, ?_⟩
    constructor
    · intro hiface hkey
      dsimp only [downloadInput]
      split
      · exact newline_linkName (newline_type _ _ _) hkey fun n hn =>
          newline_of_control (hstored.name n hn)
      · exact newline_linkId hiface hkey
    · rfl
    · dsimp only [downloadInput]
      rw [htunnel]
      rfl
    · exact hstored.dns
    · exact hstored.fullTunnel
    · exact hstored.platform
    · dsimp only [downloadInput]
      by_cases hempty : r.importedNets = []
      · rw [hnets (hstored.imported.trans (congrArg some hempty)), hempty]
      · simp [buildLinkRecord, hstored.imported, hempty]
    · exact exported_addPeer _ _ _ _ _ _
  · rw [Bool.and_eq_true, Bool.and_eq_true, decide_eq_true_eq, decide_eq_true_eq] at hb
    exact (linkId_injective w.ifaceName).ne (Ne.symm hb.1.2)

/-! The conf has the addresses it had. -/

/-- A line is read without the white space around it. -/
theorem ConfScan.line_trim (s : ConfScan) (l : List Char) :
    s.line (String.ofList (trim l)) = s.line (String.ofList l) := by
  simp only [ConfScan.line, String.toList_ofList, trim_trim]

theorem confAddresses_eq (conf : String) : confAddresses conf =
    (((splitLines conf.toList).map trim).foldl (fun (s : ConfScan) l => s.line (String.ofList l))
      ⟨false, []⟩).addresses := by
  simp only [confAddresses, textLines, List.foldl_map, ConfScan.line_trim]

/-- Outside of the interface section only its header counts. -/
theorem ConfScan.line_outside {s : ConfScan} (rawLine : String) (hs : s.inInterface = false)
    (hline : trim rawLine.toList ≠ "[Interface]".toList) :
    (s.line rawLine).inInterface = false ∧ (s.line rawLine).addresses = s.addresses := by
  simp only [ConfScan.line, hs, Bool.false_eq_true, false_and, if_false, if_neg hline]
  split_ifs with hblank hpeer
  · exact ⟨hs, rfl⟩
  · exact ⟨rfl, rfl⟩
  · exact ⟨hs, rfl⟩
  · exact ⟨hs, rfl⟩

/-- A line that starts with another character is no header of the interface. -/
theorem trim_ne_interface {c : Char} (hc : isSpace c = false) (hne : c ≠ '[') (t : List Char) :
    trim (c :: t) ≠ "[Interface]".toList := by
  obtain ⟨t', ht'⟩ := trim_cons hc t
  rw [ht']
  intro he
  exact hne (List.cons.inj he).1

/-- The lines of a new peer change no address. -/
theorem addresses_peerLines (s : ConfScan) (name key ips : String) :
    (["# " ++ name, "[Peer]", "PublicKey = " ++ key, "AllowedIPs = " ++ ips, ""].foldl ConfScan.line
      s).addresses = s.addresses := by
  have hcomment : s.line ("# " ++ name) = s := by
    obtain ⟨t, ht⟩ := trim_cons (c := '#') (by decide) (' ' :: name.toList)
    have hhash : (trim ("# " ++ name).toList).head? = some '#' := by
      rw [String.toList_append]
      exact congrArg List.head? ht
    rw [ConfScan.line, if_pos (.inr hhash)]
  have hpeer : (s.line "[Peer]").inInterface = false ∧ (s.line "[Peer]").addresses = s.addresses :=
    ⟨rfl, rfl⟩
  have hkey := ConfScan.line_outside ("PublicKey = " ++ key) hpeer.1
    (by rw [String.toList_append]; exact trim_ne_interface (by decide) (by decide) _)
  have hips := ConfScan.line_outside ("AllowedIPs = " ++ ips) hkey.1
    (by rw [String.toList_append]; exact trim_ne_interface (by decide) (by decide) _)
  have hlast := ConfScan.line_outside "" hips.1 (by decide)
  rw [List.foldl_cons, hcomment, List.foldl_cons, List.foldl_cons, List.foldl_cons, List.foldl_cons,
    List.foldl_nil]
  exact hlast.2.trans (hips.2.trans (hkey.2.trans hpeer.2))

theorem newline_strip (name : String) : '\n' ∉ (stripLinkNameControlChars name).toList := by
  rw [stripLinkNameControlChars, String.toList_ofList]
  intro hc
  exact absurd (List.mem_filter.mp hc).2 (by decide)

theorem confAddresses_peerBlock (conf : String) (name : Option String) {key ips : String}
    (hkey : '\n' ∉ key.toList) (hips : '\n' ∉ ips.toList) :
    confAddresses (conf ++ peerBlock name key ips) = confAddresses conf := by
  generalize hname : stripLinkNameControlChars ((name.filter (· ≠ "")).getD "new-peer") = stripped
  have hstripped : '\n' ∉ stripped.toList := hname ▸ newline_strip _
  have hlines : ∀ l ∈ ["# " ++ stripped, "[Peer]", "PublicKey = " ++ key, "AllowedIPs = " ++ ips,
      ""].map String.toList, '\n' ∉ l := by
    simp only [List.map_cons, List.map_nil, List.forall_mem_cons]
    exact ⟨newline_append (by decide) hstripped,
      by decide, newline_append (by decide) hkey, newline_append (by decide) hips, by decide,
      List.forall_mem_nil _⟩
  have htext : (conf ++ peerBlock name key ips).toList = conf.toList ++
      '\n' :: ['\n'].intercalate
        (["# " ++ stripped, "[Peer]", "PublicKey = " ++ key, "AllowedIPs = " ++ ips, ""].map
          String.toList) := by
    rw [String.toList_append, peerBlock, hname, String.toList_intercalate]
    rfl
  rw [confAddresses_eq, htext, map_trim_splitLines_append, splitLines_intercalate (by simp) hlines,
    List.foldl_append,
    confAddresses_eq conf, List.foldl_map, List.foldl_map]
  simp only [ConfScan.line_trim, String.ofList_toList]
  exact addresses_peerLines _ stripped key ips

/-! The lines up to the address, and those after it. -/

def headLines (inp : ClientConfigInput) (key address : String) : List String :=
  ["# WireGuard peer config — " ++ inp.displayName, "# Generated by FloppyGuard", "", "[Interface]",
    "PrivateKey = " ++ inp.privateKey,
    "# PublicKey = " ++ key ++ "  # (registered on hub — do not share)", "Address = " ++ address]

def tailLines (w : HubWorld) (inp : ClientConfigInput) : List String :=
  (if dnsServers w inp = [] then [] else ["DNS = " ++ ", ".intercalate (dnsServers w inp)]) ++
    ["", "[Peer]", "# Hub interface: " ++ w.ifaceName] ++
      (w.hubPublicKey.toList.map fun key => "PublicKey = " ++ key) ++
    ["Endpoint = " ++ w.hubHost ++ ":" ++ toString w.hubListenPort,
      "AllowedIPs = " ++ allowedText w inp, "PersistentKeepalive = 25"]

theorem lines_of_address {key address : String} (hkey : inp.publicKey = some key)
    (haddress : inp.tunnelAddress = some address) :
    clientConfigLines w inp = headLines inp key address ++ tailLines w inp := by
  rw [clientConfigLines_split, hkey, haddress, headLines, tailLines]
  simp only [Option.toList_some, List.map_cons, List.map_nil, List.append_assoc, List.cons_append,
    List.nil_append]

/-- Lines at the front are read as they are written. -/
theorem quickLines_front {front rest : List String} (hfront : ∀ l ∈ front, '\n' ∉ l.toList)
    (hrest : rest ≠ []) :
    quickLines ("\n".intercalate (front ++ rest) ++ "\n") = front.map String.toList ++
      quickLines ("\n".intercalate rest ++ "\n") := by
  have hlists : ∀ l ∈ front.map String.toList, '\n' ∉ l := by
    intro l hl
    obtain ⟨line, hline, rfl⟩ := List.mem_map.mp hl
    exact hfront line hline
  rw [quickLines, quickLines, String.toList_append, String.toList_append, String.toList_intercalate,
    String.toList_intercalate, List.map_append]
  exact splitOn_front hlists (fun hnil => hrest (List.map_eq_nil_iff.mp hnil)) _

/-- A line of the address is none of those that may differ. -/
theorem not_sameLine_address {address address' : String} (hne : address ≠ address') :
    ¬ SameLine ("Address = " ++ address).toList ("Address = " ++ address').toList := by
  rintro (he | ⟨f, hf, hprefix, -⟩)
  · rw [String.toList_append, String.toList_append] at he
    exact hne (String.toList_inj.mp (List.append_cancel_left he))
  · have hhead : f.toList.head? = some 'A' := by
      have hnonempty : ∀ f ∈ keyFronts, f.toList ≠ [] := by decide
      obtain ⟨c, cs, hcons⟩ := List.exists_cons_of_ne_nil (hnonempty f hf)
      rw [hcons, String.toList_append] at hprefix
      obtain ⟨t, ht⟩ := hprefix
      have hfirst : c = 'A' := (List.cons.inj ht).1
      rw [hcons, hfirst, List.head?_cons]
    have hfronts : ∀ f ∈ keyFronts, f.toList.head? ≠ some 'A' := by decide
    exact hfronts f hf hhead

theorem newline_headLines {key address : String} (hname : '\n' ∉ inp.displayName.toList)
    (hprivate : '\n' ∉ inp.privateKey.toList)
    (hkey : '\n' ∉ key.toList) (haddress : '\n' ∉ address.toList) :
    ∀ l ∈ headLines inp key address, '\n' ∉ l.toList := by
  simp only [headLines, List.forall_mem_cons]
  exact ⟨newline_append (by decide) hname,
    by decide, by decide, by decide, newline_append (by decide) hprivate,
    newline_append (newline_append (by decide) hkey) (by decide),
      newline_append (by decide) haddress, List.forall_mem_nil _⟩

/-- A file that `buildClientConfig` has made for a client with a key and an address. -/
structure Handed (w : HubWorld) (inp : ClientConfigInput) (key address : String)
    (file : PeerConfig) : Prop where
  made : ∃ k, file = buildClientConfig w k inp
  publicKey : inp.publicKey = some key
  tunnelAddress : inp.tunnelAddress = some address
  lines : ∀ l ∈ headLines inp key address, '\n' ∉ l.toList

theorem Handed.quickLines {key address : String} (h : Handed w inp key address file) :
    quickLines file.content =
    (headLines inp key address).map String.toList ++ quickLines
    ("\n".intercalate (tailLines w inp) ++ "\n") := by
  obtain ⟨k, hk⟩ := h.made
  rw [hk, buildClientConfig, lines_of_address h.publicKey h.tunnelAddress,
    quickLines_front h.lines (by simp [tailLines])]

/-! Both files of one client. -/

/-- A subnet that is a single address has no host to give away. -/
theorem mask_ne {addresses used : List String} {hub : HubAddress} {nextIP : String}
    (hhub : hubAddress? addresses = some hub)
    (hnext : hub.nextIP used = some nextIP) : (hubParts addresses).2 ≠ "32" := by
  intro hmask
  have hlen : hub.len = 32 := by
    rw [hubAddress?, readHub, hmask] at hhub
    split at hhub
    · next ip len _ hlen =>
      have hparse : parseInt "32".toList = some 32 := by decide
      obtain rfl := Option.some.inj (hparse.symm.trans hlen)
      rw [dif_pos le_rfl] at hhub
      cases hhub
      rfl
    · cases hhub
  obtain ⟨a, ⟨ha, -⟩, -⟩ := HubAddress.nextIP_eq_some.mp hnext
  obtain ⟨hlo, hhi, -⟩ := HubAddress.mem_candidates.mp ha
  have hfull : prefixMask 32 = BitVec.allOnes 32 := by decide
  rw [HubAddress.broadcast, hlen, hfull, BitVec.not_allOnes, BitVec.or_zero] at hhi
  omega

theorem fullTunnelIPs_stored (platform : Option String) :
    fullTunnelIPs (platform.filter (· ∈ ["desktop", "mobile"])) = fullTunnelIPs platform := by
  cases platform with
  | none => rfl
  | some s =>
    by_cases hs : s ∈ ["desktop", "mobile"]
    · rw [Option.filter_some, if_pos (decide_eq_true hs)]
    · have hne : some s ≠ some "mobile" := fun he => hs (by rw [Option.some.inj he]; decide)
      rw [Option.filter_some, if_neg (by simpa using hs), fullTunnelIPs, fullTunnelIPs,
        if_neg (by decide), if_neg hne]

/-- Behind the address both files have the same lines, unless the hub's port is zero. -/
theorem tailLines_eq {r : Request} {key nextIP : String} {links : List LinkRecord}
    (h : DownloadOf w r (w.derivePublicKey key) nextIP links inp)
    (hport : listenPort ≠ some 0) :
    tailLines { w with hubListenPort := createPort listenPort } (createInput w r key nextIP links) =
      tailLines { w with hubListenPort := downloadPort listenPort } inp := by
  have hports : createPort listenPort = downloadPort listenPort := by
    cases listenPort with
    | none => rfl
    | some n =>
      have hn : n ≠ 0 := fun he => hport (congrArg some he)
      rw [createPort, Option.filter_some, if_pos (decide_eq_true hn)]
      rfl
  have hdns : dnsServers { w with hubListenPort := downloadPort listenPort }
    (createInput w r key nextIP links) =
      dnsServers { w with hubListenPort := downloadPort listenPort } inp := by
    rw [dnsServers, dnsServers, h.linkDns]
    rfl
  have hallowed : allowedText { w with hubListenPort := downloadPort listenPort }
    (createInput w r key nextIP links) =
      allowedText { w with hubListenPort := downloadPort listenPort } inp := by
    have hnets : clientAllowedIPs { w with hubListenPort := downloadPort listenPort }
      (createInput w r key nextIP links) =
        clientAllowedIPs { w with hubListenPort := downloadPort listenPort } inp := by
      rw [clientAllowedIPs, clientAllowedIPs, h.fullTunnel, h.platform, fullTunnelIPs_stored,
        h.importedNets, h.exported]
      rfl
    rw [allowedText, allowedText, hnets]
  rw [hports, tailLines, tailLines, hdns, hallowed]

/-- Both calls, each with what it hands to `buildClientConfig`. -/
theorem both_handed (hiface : '\n' ∉ surroundings.ifaceName.toList)
    (hprivate : '\n' ∉ privateKey.toList)
    (hnew : '\n' ∉ newKey.toList)
    (hkeys : ∀ k ∈ [privateKey, newKey], '\n' ∉ (surroundings.derivePublicKey k).toList)
    (hc : createPeer surroundings env iface listenPort p otherAddresses request privateKey =
      .ok created)
    (hd : download surroundings env iface listenPort created.peers created.linkId newKey rewritten =
      some file) :
    ∃ w w' inp inp' key key' nextIP mask, mask ≠ "32" ∧
    Handed w inp key (nextIP ++ "/" ++ mask) created.config ∧
      Handed w' inp' key' (nextIP ++ "/32") file ∧
      (listenPort ≠ some 0 → tailLines w inp = tailLines w' inp') := by
  have hmask : '\n' ∉ (hubParts (reads surroundings p.conf env iface).ifaceAddresses).2.toList :=
    newline_mask fun a ha => (sound_confAddresses p.conf a ha).2
  generalize hw : reads surroundings p.conf env iface = w at hmask
  obtain ⟨r, hub, nextIP, hr, hhub, hnext, rfl⟩ := createPeer_spec hw.symm hc
  have hname : '\n' ∉ w.ifaceName.toList := hw ▸ hiface
  have hpublic : '\n' ∉ (w.derivePublicKey privateKey).toList :=
    hw ▸ hkeys privateKey List.mem_cons_self
  have hnewPublic : '\n' ∉ (w.derivePublicKey newKey).toList :=
    hw ▸ hkeys newKey (.tail _ (.head _))
  have hip := newline_nextIP hnext
  have hworld : w = reads surroundings
      (p.conf ++ peerBlock r.name (w.derivePublicKey privateKey) (nextIP ++ "/32")) env iface := by
    rw [reads, confAddresses_peerBlock p.conf r.name hpublic (newline_append hip (by decide))]
    exact hw.symm
  obtain ⟨inp, hfile, hkey, h⟩ := download_spec hworld hd
  refine ⟨{ w with hubListenPort := createPort listenPort },
    { w with hubListenPort := downloadPort listenPort }, createInput w r privateKey
    nextIP (statusLinks w.ifaceName (linkEntries p.links) p.live), inp,
      w.derivePublicKey privateKey, w.derivePublicKey newKey, nextIP, (hubParts w.ifaceAddresses).2,
        mask_ne hhub hnext, ?_, ?_, ?_⟩
  · refine ⟨⟨_, rfl⟩, rfl, rfl, newline_headLines ?_ hprivate hpublic ?_⟩
    · exact newline_createName hname hpublic (sanitizeRequest_spec hr).1
    · exact newline_append (newline_append hip (by decide)) hmask
  · exact ⟨⟨_, hfile⟩, hkey ▸ h.publicKey, h.tunnelAddress,
      newline_headLines (h.displayName hname hpublic) (hkey ▸ hnew)
      hnewPublic (newline_append hip (by decide))⟩
  · exact tailLines_eq h

/-- The prefix of the hub is not that of a single address. -/
theorem not_same_of_handed {w w' : HubWorld} {inp inp' : ClientConfigInput}
    {key key' nextIP mask : String} {file file' : PeerConfig}
    (hmask : mask ≠ "32") (h : Handed w inp key (nextIP ++ "/" ++ mask) file)
    (h' : Handed w' inp' key' (nextIP ++ "/32") file') :
    ¬ SameButKeys file.content file'.content := by
  have haddress : nextIP ++ "/" ++ mask ≠ nextIP ++ "/32" := by
    intro he
    have htext := congrArg String.toList he
    simp only [String.toList_append, List.append_assoc] at htext
    exact hmask (String.toList_inj.mp (List.cons.inj (List.append_cancel_left htext)).2)
  intro hsame
  rw [SameButKeys, h.quickLines, h'.quickLines] at hsame
  exact not_sameLine_address haddress
    ((List.forall₂_iff_get.mp hsame).2 6 (by simp [headLines]) (by simp [headLines]))

/-- The address of the new file has the prefix of the hub, that of the download is a single address.
-/
theorem created_never_downloaded (hiface : '\n' ∉ surroundings.ifaceName.toList)
    (hprivate : '\n' ∉ privateKey.toList)
    (hnew : '\n' ∉ newKey.toList)
    (hkeys : ∀ k ∈ [privateKey, newKey], '\n' ∉ (surroundings.derivePublicKey k).toList)
    (hc : createPeer surroundings env iface listenPort p otherAddresses request privateKey =
      .ok created)
    (hd : download surroundings env iface listenPort created.peers created.linkId newKey rewritten =
      some file) :
    ¬ SameButKeys created.config.content file.content := by
  obtain ⟨w, w', inp, inp', key, key', nextIP, mask, hmask, hcreated, hfile, -⟩ :=
    both_handed hiface hprivate hnew hkeys hc hd
  exact not_same_of_handed hmask hcreated hfile

/-- Behind the address both files are the same, unless the hub's port is zero. -/
theorem created_same_tail (hiface : '\n' ∉ surroundings.ifaceName.toList)
    (hport : listenPort ≠ some 0) (hprivate : '\n' ∉ privateKey.toList)
    (hnew : '\n' ∉ newKey.toList)
    (hkeys : ∀ k ∈ [privateKey, newKey], '\n' ∉ (surroundings.derivePublicKey k).toList)
    (hc : createPeer surroundings env iface listenPort p otherAddresses request privateKey =
      .ok created)
    (hd : download surroundings env iface listenPort created.peers created.linkId newKey rewritten =
      some file) :
    (quickLines created.config.content).drop 7 = (quickLines file.content).drop 7 := by
  obtain ⟨w, w', inp, inp', key, key', nextIP, mask, -, hcreated, hfile, htail⟩ :=
    both_handed hiface hprivate hnew hkeys hc hd
  rw [hcreated.quickLines, hfile.quickLines, htail hport]
  rfl

/-! The first client of a hub, and its download. -/

def phoneRequest : PeerRequest := ⟨some "phone", .null, .bool false, none, .null⟩

def phoneHub : Peers := ⟨sampleConf, .empty, .empty⟩

def phoneCreated : Except String Created :=
  createPeer sampleHub "" .empty (some 51820) phoneHub [] phoneRequest "key"

def phoneDownload (c : Created) : Option PeerConfig :=
  download sampleHub "" .empty (some 51820) c.peers c.linkId "new" true

theorem phone_files :
    ∃ created file, phoneCreated = .ok created ∧ phoneDownload created = some file := by
  have hboth : (phoneCreated.toOption.bind phoneDownload).isSome = true := by decide +kernel
  obtain ⟨file, hfile⟩ := Option.isSome_iff_exists.mp hboth
  obtain ⟨created, hcreated, hfile⟩ := Option.bind_eq_some_iff.mp hfile
  refine ⟨created, file, ?_, hfile⟩
  cases hc : phoneCreated with
  | error e =>
    rw [hc] at hcreated
    cases hcreated
  | ok c =>
    rw [hc] at hcreated
    cases hcreated
    rfl

theorem newline_phoneKeys : ∀ k ∈ ["key", "new"], '\n' ∉ (sampleHub.derivePublicKey k).toList := by
  decide

theorem phone_created_and_downloaded :
    ∃ created file, phoneCreated = .ok created ∧ phoneDownload created = some file ∧
    ¬ SameButKeys created.config.content file.content := by
  obtain ⟨created, file, hc, hd⟩ := phone_files
  exact ⟨created, file, hc, hd, created_never_downloaded (by decide) (by decide) (by decide)
    newline_phoneKeys hc hd⟩

/-- The new file has the address 10.10.0.2/24, the download has 10.10.0.2/32. -/
theorem phone_files_differ :
    ¬ ∀ created file, phoneCreated = .ok created → phoneDownload created = some file →
    SameButKeys created.config.content file.content := by
  intro hsame
  obtain ⟨created, file, hc, hd⟩ := phone_files
  obtain ⟨w, w', inp, inp', key, key', nextIP, mask, hmask, hcreated, hfile, -⟩ :=
    both_handed (by decide) (by decide) (by decide) newline_phoneKeys hc hd
  exact not_same_of_handed hmask hcreated hfile (hsame created file hc hd)

end FloppyGuard.WireGuard.ClientFile
