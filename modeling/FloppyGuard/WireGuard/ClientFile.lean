import FloppyGuard.Agent.HiddenKeys
import FloppyGuard.WireGuard.KeyRotation
import FloppyGuard.WireGuard.TunnelAddress
import FloppyGuard.WireGuard.WrittenStore

/-! The config of a client, read line by line as `wg-quick` does. -/
namespace FloppyGuard.WireGuard.ClientFile

open Text Patch KeyRotation
open AgentSync (quickKey quickLines stripped textLines)

/-! The hub's conf, environment and metadata. -/

/-- What `parseConfig` keeps of the lines above. -/
structure ConfScan where
  inInterface : Bool
  addresses : List String

/-- `line.split("=", 2)` -/
def splitEq (line : List Char) : List Char × List Char :=
  (trim (line.takeWhile (· ≠ '=')), trim (((line.dropWhile (· ≠ '=')).tail).takeWhile (· ≠ '=')))

def ConfScan.line (s : ConfScan) (rawLine : String) : ConfScan :=
  let line := trim rawLine.toList
  if line = [] ∨ line.head? = some '#' then s
  else if line = "[Interface]".toList then { s with inInterface := true }
  else if line = "[Peer]".toList then { s with inInterface := false }
  else if '=' ∉ line then s
  else if s.inInterface ∧ (splitEq line).1 = "Address".toList then
    { s with addresses := commaList (splitEq line).2 }
  else s

/-- The addresses of `parseConfig`. -/
def confAddresses (conf : String) : List String :=
  ((textLines conf).foldl ConfScan.line ⟨false, []⟩).addresses

/-- `process.env.WG_DNS.split(",").map((s) => s.trim())`; an empty variable counts as none. -/
def wgDnsOf (env : String) : List String :=
  if env = "" then [] else (env.toList.splitOn ',').map fun s => String.ofList (trim s)

/-- The surroundings as the conf, `WG_DNS` and the interface's metadata entry give them. -/
def reads (w : HubWorld) (conf env : String) (iface : Patch.Entry) : HubWorld :=
  { w with
    ifaceAddresses := confAddresses conf, ifaceDns := (textsAt iface "dns").getD [],
    wgDns := wgDnsOf env }

/-! The two calls of `buildClientConfig`. -/

/-- The arguments of `_generatePeerConfigUncached`. -/
def downloadInput (w : HubWorld) (d : Draft) (id : String) (linkMeta : LinkEntry) :
    ClientConfigInput where
  displayName := if d.link.name ≠ "" then d.link.name else d.link.id
  privateKey := d.privateKey
  publicKey := some (d.newPubKey w)
  tunnelAddress := d.link.tunnelAddresses.head?
  linkDns := linkMeta.dns
  fullTunnel := linkMeta.fullTunnel
  platform := linkMeta.platform
  importedNets := d.link.importedNetworks
  links := d.status
  excludeLinkId := id

theorem config_eq {w : HubWorld} {d : Draft} {id : String} {rotated : Bool}
    {store : Table String LinkEntry} :
    d.config w id rotated store = buildClientConfig w (d.newPubKey w)
      (downloadInput w d id
        (((store.get? (if rotated then d.newLinkId w else id)).or (store.get? id)).getD .blank)) :=
  rfl

/-- A request of `createPeer` once its lists are sanitized. -/
structure Request where
  name : Option String
  dnsList : List String
  fullTunnel : Bool
  platform : Option String
  importedNets : List String

/-- The arguments of `createPeer`. -/
def createInput (w : HubWorld) (r : Request) (privateKey nextIP : String)
    (links : List LinkRecord) : ClientConfigInput :=
  let publicKey := w.derivePublicKey privateKey
  let linkId := linkId w.ifaceName publicKey
  { displayName := (r.name.filter (· ≠ "")).getD linkId
    privateKey
    publicKey := some publicKey
    tunnelAddress := some (nextIP ++ "/" ++ (hubParts w.ifaceAddresses).2)
    linkDns := r.dnsList
    fullTunnel := r.fullTunnel
    platform := r.platform
    importedNets := r.importedNets
    links
    excludeLinkId := linkId }

def isSafeLinkName (name : String) : Bool := name.toList.all fun c => !isControlChar c

/-- The characters of a key and of an address as `wg` prints them. -/
def isDumpChar (c : Char) : Bool :=
  c.isAlphanum || c = '+' || c = '/' || c = '=' || c = '.' || c = ':'

def DumpText (s : String) : Prop := s ≠ "" ∧ ∀ c ∈ s.toList, isDumpChar c = true

/-- `wg show dump` -/
def Dumped (live : Table String (List String)) : Prop :=
  ∀ key ips, live.get? key = some ips → DumpText key ∧ ∀ ip ∈ ips, DumpText ip

/-- Every call that the hub makes, over any store written through the sanitizers and any live
status. -/
inductive Called (w : HubWorld) : ClientConfigInput → Prop
  | download {links links' : Entries} {live : Table String (List String)} {d : Draft} {id : String}
      {linkMeta : LinkEntry} :
    WrittenLinks w.isIP links → WrittenLinks w.isIP links' → Dumped live →
      d.status = statusLinks w.ifaceName (linkEntries links) live →
    d.link ∈ d.status → DumpText d.privateKey → DumpText (d.newPubKey w) →
    linkMeta = .blank ∨ (∃ key, (linkEntries links').get? key = some linkMeta) →
    Called w (downloadInput w d id linkMeta)
  | create {links : Entries} {live : Table String (List String)} {r : Request} {dns nets : Js}
      {privateKey nextIP : String} {hub : HubAddress}
      {used : List String} :
    WrittenLinks w.isIP links → Dumped live → (∀ name ∈ r.name, isSafeLinkName name = true) →
    sanitizeDnsArray w.isIP dns = .ok r.dnsList → sanitizeNetworkArray nets = .ok r.importedNets →
      DumpText privateKey →
    DumpText (w.derivePublicKey privateKey) → hubAddress? w.ifaceAddresses = some hub →
      hub.nextIP used = some nextIP →
    Called w (createInput w r privateKey nextIP (statusLinks w.ifaceName (linkEntries links) live))

/-! The file as it is read. -/

def interfaceKeys : List (List Char) := ["privatekey".toList, "address".toList, "dns".toList]

def peerKeys : List (List Char) :=
  ["publickey".toList, "endpoint".toList, "allowedips".toList, "persistentkeepalive".toList]

/-- The keys and headers of a file, in lower case and in order. -/
def quickKeys (content : String) : List (List Char) :=
  ((quickLines content).map quickKey).filter (· ≠ [])

/-- The networks of an `AllowedIPs` line. -/
def allowedParts (line : List Char) : List String :=
  ((afterEq (stripped line)).splitOn ',').map String.ofList

structure FileOk (content : String) (fullTunnel : Bool) : Prop where
  /-- one section after the other, no other key, none twice -/
  sections : ∃ a b, quickKeys content = "[interface]".toList :: a ++ "[peer]".toList :: b ∧
    a ⊆ interfaceKeys ∧ b ⊆ peerKeys ∧
    (a ++ b).Nodup
  noDefault : fullTunnel = false → ∀ line ∈ quickLines content,
    quickKey line = "allowedips".toList →
    ∀ part ∈ allowedParts line, ∀ c, canonicalCidr part = some c → minNetworkPrefix ≤ c.len

/-- What is left of an address once a comment is cut off. -/
def beforeHash (address : String) : String := String.ofList (stripped address.toList)

/-- There is a network to write, and no short one among those of the link. -/
def HasNets (w : HubWorld) (inp : ClientConfigInput) : Prop :=
  (inp.importedNets ≠ [] ∨ w.ifaceAddresses ≠ [] ∨ ∃ l ∈ inp.links, l.id ≠ inp.excludeLinkId ∧
    l.exportedNetworks ≠ []) ∧
  ∀ net ∈ inp.importedNets, ∀ c, canonicalCidr net = some c → minNetworkPrefix ≤ c.len

variable {w : HubWorld} {inp : ClientConfigInput} {conf env : String} {iface : Patch.Entry}
  {line s t : List Char} {f k a : String}
  {ls : List (List Char)} {nets : List String}

/-! Reading a line. -/

/-- The front of a line, with a key that is read as it is written. -/
def Front (f k : String) : Prop :=
  f.toList = k.toList ++ " = ".toList ∧ (∀ c ∈ k.toList, c ≠ '#' ∧ c ≠ '=') ∧
  strip AgentSync.isBlank (k.toList ++ [' ']) = k.toList

instance decidableFront (f k : String) : Decidable (Front f k) :=
  inferInstanceAs (Decidable (_ ∧ _))

theorem stripped_entry (hf : Front f k) (t : List Char) :
    stripped (f.toList ++ t) = k.toList ++ (" = ".toList ++ stripped t) := by
  have hfront : ∀ c ∈ k.toList ++ " = ".toList, decide (c ≠ '#') = true := by
    intro c hc
    rcases List.mem_append.mp hc with hc | hc
    · exact decide_eq_true (hf.2.1 c hc).1
    · have hsep : ∀ c ∈ " = ".toList, decide (c ≠ '#') = true := by decide
      exact hsep c hc
  rw [stripped, hf.1, List.takeWhile_append_of_pos hfront, List.append_assoc, stripped]

theorem quickKey_entry (hf : Front f k) (t : List Char) :
    quickKey (f.toList ++ t) = k.toList.map Char.toLower := by
  have htake : (stripped (f.toList ++ t)).takeWhile (· ≠ '=') = k.toList ++ [' '] := by
    rw [stripped_entry hf, List.takeWhile_append_of_pos fun c hc => decide_eq_true (hf.2.1 c hc).2]
    refine congrArg (k.toList ++ ·) ?_
    rfl
  rw [quickKey, htake, hf.2.2]

theorem afterEq_entry (hf : Front f k) (t : List Char) :
    afterEq (stripped (f.toList ++ t)) = ' ' :: stripped t := by
  have hdrop : (stripped (f.toList ++ t)).dropWhile (· ≠ '=') = '=' :: ' ' :: stripped t := by
    rw [stripped_entry hf, List.dropWhile_append_of_pos fun c hc => decide_eq_true (hf.2.1 c hc).2]
    rfl
  have hmem : '=' ∈ stripped (f.toList ++ t) := by
    rw [stripped_entry hf]
    simp
  rw [afterEq, if_pos hmem, hdrop, List.tail_cons]

/-- A comment cuts a list off; what is left of its text is read. -/
def untilHash : List (List Char) → List (List Char)
  | [] => []
  | l :: ls => if '#' ∈ l then [stripped l] else l :: untilHash ls

theorem stripped_eq_self (h : '#' ∉ s) : stripped s = s :=
  List.takeWhile_eq_self_iff.mpr fun _ hc => decide_eq_true fun he => h (he ▸ hc)

theorem stripped_append (h : '#' ∉ s) (t : List Char) : stripped (s ++ t) = s ++ stripped t :=
  List.takeWhile_append_of_pos fun _ hc => decide_eq_true fun he => h (he ▸ hc)

/-- A comment hides what is behind it. -/
theorem stripped_append_of_hash (h : '#' ∈ s) (t : List Char) : stripped (s ++ t) = stripped s := by
  have hlt : s.takeWhile (· ≠ '#') ≠ s := fun he => by
    have := List.mem_takeWhile_imp (he.symm ▸ h)
    simp at this
  rw [stripped, List.takeWhile_append, if_neg fun hl =>
    hlt ((List.takeWhile_prefix _).eq_of_length hl), stripped]

/-- The parts of a joined list, up to a comment. -/
theorem map_trim_parts (hne : ls ≠ []) (hls : ∀ l ∈ ls, ',' ∉ l) :
    ((stripped ([',', ' '].intercalate ls)).splitOn ',').map trim = (untilHash ls).map trim := by
  induction ls with
  | nil => exact absurd rfl hne
  | cons x xs ih =>
    have hx := hls x List.mem_cons_self
    have hsplit : (stripped x).splitOn ',' = [stripped x] :=
      List.splitOn_eq_singleton fun hmem => hx ((List.takeWhile_sublist _).subset hmem)
    rw [untilHash]
    cases xs with
    | nil =>
      rw [List.intercalate_singleton, hsplit]
      split
      · rfl
      · next hhash =>
        rw [stripped_eq_self hhash]
        rfl
    | cons y ys =>
      rw [List.intercalate_cons_cons, List.append_assoc]
      split
      · next hhash => rw [stripped_append_of_hash hhash, hsplit]
      · next hhash =>
        have hrest : stripped ([',', ' '] ++ [',', ' '].intercalate (y :: ys)) = ',' :: ' ' ::
            stripped ([',', ' '].intercalate (y :: ys)) := rfl
        rw [stripped_append hhash, hrest, List.splitOn_append_cons_self,
          List.splitOn_eq_singleton hx, List.map_append,
          map_trim_splitOn_space (by decide), ih (List.cons_ne_nil y ys) fun l hl =>
            hls l (List.mem_cons_of_mem _ hl)]
        rfl

theorem mem_untilHash (h : s ∈ untilHash ls) : ∃ l ∈ ls, s = stripped l := by
  induction ls with
  | nil => cases h
  | cons x xs ih =>
    rw [untilHash] at h
    split at h
    · exact ⟨x, List.mem_cons_self, List.mem_singleton.mp h⟩
    · next hhash =>
      rcases List.mem_cons.mp h with rfl | h
      · exact ⟨s, List.mem_cons_self, (stripped_eq_self hhash).symm⟩
      · obtain ⟨l, hl, he⟩ := ih h
        exact ⟨l, List.mem_cons_of_mem _ hl, he⟩

theorem untilHash_eq_self (h : ∀ l ∈ ls, '#' ∉ l) : untilHash ls = ls := by
  induction ls with
  | nil => rfl
  | cons x xs ih =>
    rw [untilHash, if_neg (h x List.mem_cons_self), ih fun l hl => h l (List.mem_cons_of_mem _ hl)]

theorem canonicalCidr_congr {a b : String} (h : trim a.toList = trim b.toList) :
    canonicalCidr a = canonicalCidr b := by
  rw [canonicalCidr, canonicalCidr, h]

/-! No line end gets into a line. -/

/-- The hub's own texts are of one line, and `net.isIP` accepts addresses (with a zone or not). -/
structure OneLine (w : HubWorld) : Prop where
  ifaceName : '\n' ∉ w.ifaceName.toList
  hubHost : '\n' ∉ w.hubHost.toList
  hubPublicKey : ∀ k ∈ w.hubPublicKey, '\n' ∉ k.toList
  isIP : ∀ s, w.isIP s = true → ∀ c ∈ s.toList, c.isAlphanum = true ∨ c ∈ ['.', ':', '%', '-']

theorem newline_of_dumpText (h : DumpText a) : '\n' ∉ a.toList := by
  intro hc
  have hchar := h.2 _ hc
  revert hchar
  decide

theorem newline_dnsName (h : isDnsName s = true) : '\n' ∉ s := by
  intro hc
  rw [isDnsName, Bool.and_eq_true] at h
  have hbody : '\n' ∈ if s.getLast? = some '.' then s.dropLast else s := by
    split
    · next hlast =>
      obtain ⟨front, rfl⟩ := List.getLast?_eq_some_iff.mp hlast
      rw [List.dropLast_concat]
      rcases List.mem_append.mp hc with hc | hc
      · exact hc
      · exact absurd (List.mem_singleton.mp hc) (by decide)
    · exact hc
  rcases mem_splitOn (a := '.') hbody with he | ⟨label, hlabel, hmem⟩
  · exact absurd he (by decide)
  · have hchars := List.all_eq_true.mp h.2 label hlabel
    rw [isDnsLabel, Bool.and_eq_true] at hchars
    have hchar := List.all_eq_true.mp hchars.2 _ hmem
    revert hchar
    decide

theorem newline_dns {d : String} (hw : OneLine w) (h : StoredDns w.isIP d) : '\n' ∉ d.toList := by
  obtain ⟨htrim, hvalid⟩ := h
  have htext : trim d.toList = d.toList := by
    rw [← String.toList_ofList (l := trim d.toList)]
    exact congrArg String.toList htrim
  rw [isValidDnsEntry, Bool.or_eq_true, htext, String.ofList_toList] at hvalid
  rcases hvalid with hip | hname
  · intro hc
    have hchar := hw.isIP d hip _ hc
    revert hchar
    decide
  · exact newline_dnsName hname

theorem newline_of_control {n : String} (h : ∀ c ∈ n.toList, isControlChar c = false) :
    '\n' ∉ n.toList := by
  intro hc
  have hchar := h _ hc
  revert hchar
  decide

theorem normalizeLinkType_mem {type : Option String} {t : String}
    (h : normalizeLinkType type = some t) : t ∈ linkTypes := by
  unfold normalizeLinkType at h
  split at h
  · cases h
  · cases h
  · cases h
    decide
  · obtain ⟨hmem, he⟩ := Option.ite_none_right_eq_some.mp h
    cases he
    exact hmem

theorem classifyLinkType_mem (ips : List String) (ifaceName : String) :
    classifyLinkType ips ifaceName ∈ linkTypes := by
  simp only [classifyLinkType]
  split_ifs
  all_goals decide

theorem newline_type (type : Option String) (ips : List String) (ifaceName : String) :
    '\n' ∉ ((normalizeLinkType type).getD (classifyLinkType ips ifaceName)).toList := by
  have htypes : ∀ t ∈ linkTypes, '\n' ∉ t.toList := by decide
  refine htypes _ ?_
  cases h : normalizeLinkType type with
  | some t => exact normalizeLinkType_mem h
  | none => exact classifyLinkType_mem ips ifaceName

theorem newline_linkName {type publicKey : String} {name : Option String}
    (htype : '\n' ∉ type.toList) (hkey : '\n' ∉ publicKey.toList)
    (hname : ∀ n ∈ name, '\n' ∉ n.toList) : '\n' ∉ (linkName type publicKey name).toList := by
  have hgenerated : '\n' ∉ (type ++ "-" ++ String.ofList (publicKey.toList.take 8)).toList := by
    simp only [String.toList_append, String.toList_ofList, List.mem_append, not_or]
    exact ⟨⟨htype, by decide⟩, fun hc => hkey (List.mem_of_mem_take hc)⟩
  unfold linkName
  split
  · exact hgenerated
  · exact hgenerated
  · next n _ => exact hname n rfl

/-! What a call hands over. -/

structure Sound (inp : ClientConfigInput) (isIP : String → Bool) : Prop where
  displayName : '\n' ∉ inp.displayName.toList
  privateKey : '\n' ∉ inp.privateKey.toList
  publicKey : ∀ k ∈ inp.publicKey, '\n' ∉ k.toList
  tunnelAddress : ∀ a ∈ inp.tunnelAddress, '\n' ∉ a.toList
  linkDns : ∀ d ∈ inp.linkDns, trimmed d = d
  imported : ∀ net ∈ inp.importedNets, DumpText net
  exported : ∀ l ∈ inp.links, ∀ net ∈ l.exportedNetworks, StoredNet net

theorem dumpText_render (c : Cidr) : DumpText c.render := by
  constructor
  · have htrimmed := Trimmed.ends (WireGuard.trimmed_render c)
    intro he
    rw [he] at htrimmed
    exact htrimmed.1 rfl
  · intro d hd
    rw [Cidr.render, String.toList_ofList] at hd
    rcases mem_toText hd with rfl | rfl | hd
    · decide
    · decide
    · simp [isDumpChar, Char.isAlphanum, hd]

theorem dumpText_of_stored {net : String} (h : StoredNet net) : DumpText net := by
  obtain ⟨c, rfl, -⟩ := h
  exact dumpText_render c

theorem safeEntry_of_get {isIP : String → Bool} {links : Entries} (h : WrittenLinks isIP links)
    (key : String) :
    SafeEntry isIP (((linkEntries links).get? key).getD .blank) := by
  rw [linkEntries, Table.get?_filterMap]
  cases hget : links.get? key with
  | none => exact safeEntry_blank
  | some e => exact safeEntry_linkEntry (h key e hget)

theorem statusLink_spec {isIP : String → Bool} {links : Entries} {live : Table String (List String)}
    {ifaceName : String} {l : LinkRecord}
    (hlinks : WrittenLinks isIP links) (hlive : Dumped live)
    (hl : l ∈ statusLinks ifaceName (linkEntries links) live) :
    '\n' ∉ l.name.toList ∧ (∀ net ∈ l.exportedNetworks, StoredNet net) ∧
    (∀ net ∈ l.importedNetworks, DumpText net) ∧
      ∀ a ∈ l.tunnelAddresses, DumpText a := by
  obtain ⟨p, hp, rfl⟩ := List.mem_map.mp hl
  obtain ⟨hkey, hips⟩ := hlive p.1 p.2 (Table.get?_of_mem hp)
  have hsafe := safeEntry_of_get hlinks (linkId ifaceName p.1)
  have hdedupe : ∀ (ips : List String), (∀ ip ∈ ips, DumpText ip) → ∀ ip ∈ dedupe ips,
      DumpText ip := by
    intro ips h ip hip
    exact h ip (List.mem_of_mem_filter (List.mem_eraseDups.mp hip))
  refine ⟨newline_linkName (newline_type _ _ _) (newline_of_dumpText hkey) fun n hn =>
    newline_of_control (hsafe.name n hn),
    hsafe.exported, ?_, hdedupe _ fun ip hip => hips ip (List.mem_of_mem_filter hip)⟩
  dsimp only [buildLinkRecord]
  split
  · next hne =>
    intro net hnet
    cases hstored :
      (((linkEntries links).get? (linkId ifaceName p.1)).getD LinkEntry.blank).importedNetworks with
    | none => exact absurd (by rw [hstored]; rfl) hne
    | some nets =>
      rw [hstored] at hnet
      exact dumpText_of_stored (hsafe.imported nets hstored net hnet)
  · exact hdedupe _ fun ip hip => hips ip (List.mem_of_mem_filter hip)

/-- What the hub's surroundings hand over. -/
structure SoundWorld (w : HubWorld) : Prop where
  addresses : ∀ a ∈ w.ifaceAddresses, Trimmed a ∧ '\n' ∉ a.toList
  ifaceDns : ∀ d ∈ w.ifaceDns, trimmed d = d
  wgDns : ∀ d ∈ w.wgDns, trimmed d = d

theorem newline_commaList {v : List Char} (h : '\n' ∉ v) : ∀ a ∈ commaList v, '\n' ∉ a.toList := by
  intro a ha hc
  obtain ⟨l, hl, rfl⟩ := List.mem_map.mp ha
  obtain ⟨part, hpart, rfl⟩ := List.mem_map.mp (List.mem_filter.mp hl).1
  rw [String.toList_ofList] at hc
  have hpiece : part <:+: [','].intercalate (v.splitOn ',') := infix_intercalate hpart
  rw [List.intercalate_splitOn] at hpiece
  exact h (hpiece.subset (mem_of_mem_trim hc))

theorem newline_splitEq (h : '\n' ∉ line) : '\n' ∉ (splitEq line).2 := by
  intro hc
  have hmem := (List.takeWhile_sublist _).subset (mem_of_mem_trim hc)
  exact h ((List.dropWhile_sublist _).subset (List.mem_of_mem_tail hmem))

theorem ConfScan.line_sound {s : ConfScan} {rawLine : String} (hline : '\n' ∉ rawLine.toList)
    (h : ∀ a ∈ s.addresses, Trimmed a ∧ '\n' ∉ a.toList) :
    ∀ a ∈ (s.line rawLine).addresses, Trimmed a ∧ '\n' ∉ a.toList := by
  have hnot : '\n' ∉ trim rawLine.toList := fun hc => hline (mem_of_mem_trim hc)
  unfold ConfScan.line
  generalize trim rawLine.toList = line at hnot
  dsimp only
  split
  · exact h
  split
  · exact h
  split
  · exact h
  split
  · exact h
  split
  · intro a ha
    exact ⟨trimmed_commaList a ha, newline_commaList (newline_splitEq hnot) a ha⟩
  · exact h

theorem sound_confAddresses (conf : String) :
    ∀ a ∈ confAddresses conf, Trimmed a ∧ '\n' ∉ a.toList := by
  have hlines : ∀ l ∈ textLines conf, '\n' ∉ l.toList := by
    intro l hl
    obtain ⟨s, hs, rfl⟩ := List.mem_map.mp hl
    rw [String.toList_ofList]
    exact newline_not_mem s hs
  have hfold : ∀ (ls : List String) (s : ConfScan), (∀ l ∈ ls, '\n' ∉ l.toList) →
    (∀ a ∈ s.addresses, Trimmed a ∧ '\n' ∉ a.toList) →
      ∀ a ∈ (ls.foldl ConfScan.line s).addresses, Trimmed a ∧ '\n' ∉ a.toList := by
    intro ls
    induction ls with
    | nil => exact fun s _ hs => hs
    | cons l ls ih =>
      exact fun s hls hs => ih _ (fun l' hl' => hls l' (List.mem_cons_of_mem _ hl'))
        (ConfScan.line_sound (hls l List.mem_cons_self) hs)
  refine hfold _ _ hlines fun a ha => ?_
  cases ha

theorem soundWorld_reads (hiface : Written (interfaceFields w.isIP) iface) :
    SoundWorld (reads w conf env iface) := by
  refine ⟨sound_confAddresses conf, ?_, ?_⟩
  · intro d hd
    cases hxs : textsAt iface "dns" with
    | none =>
      simp only [reads, hxs] at hd
      cases hd
    | some xs =>
      simp only [reads, hxs] at hd
      obtain ⟨v, hv⟩ :=
        hiface.list nodup_interfaceFields
          (.tail _ (.tail _ (.tail _ (.tail _ (.tail _ (.tail _ (.head _))))))) hxs
      exact (storedDns hv d hd).1
  · intro d hd
    simp only [reads, wgDnsOf] at hd
    split at hd
    · cases hd
    · obtain ⟨s, -, rfl⟩ := List.mem_map.mp hd
      rw [trimmed, String.toList_ofList, trim_trim]

theorem newline_ipText (a : Ip) : '\n' ∉ (ipText a).toList := by
  intro hc
  rw [ipText, String.toList_ofList] at hc
  rcases mem_intToIp hc with he | hd
  · exact absurd he (by decide)
  · exact absurd hd (by decide)

theorem newline_nextIP {hub : HubAddress} {used : List String} {ip : String}
    (h : hub.nextIP used = some ip) : '\n' ∉ ip.toList := by
  obtain ⟨host, -, rfl⟩ := List.mem_map.mp (List.mem_of_find?_eq_some h)
  exact newline_ipText _

theorem newline_mask (h : ∀ a ∈ w.ifaceAddresses, '\n' ∉ a.toList) :
    '\n' ∉ (hubParts w.ifaceAddresses).2.toList := by
  rw [hubParts]
  dsimp only
  rw [String.toList_ofList]
  have haddress : '\n' ∉ ((w.ifaceAddresses.head?.filter (· ≠ "")).getD "10.10.0.1/24").toList := by
    cases hhead : w.ifaceAddresses.head?.filter (· ≠ "") with
    | none => decide
    | some a => exact h a (List.mem_of_mem_head? (Option.filter_eq_some_iff.mp hhead).1)
  generalize ((w.ifaceAddresses.head?.filter (· ≠ "")).getD "10.10.0.1/24").toList = text
    at haddress
  cases hmask : (text.splitOn '/').tail.head?.filter (· ≠ []) with
  | none => decide
  | some mask =>
    have hmem := List.mem_of_mem_tail (List.mem_of_mem_head? (Option.filter_eq_some_iff.mp hmask).1)
    have hpiece : mask <:+: ['/'].intercalate (text.splitOn '/') := infix_intercalate hmem
    rw [List.intercalate_splitOn] at hpiece
    exact fun hc => haddress (hpiece.subset hc)

theorem newline_linkId {ifaceName key : String} (hiface : '\n' ∉ ifaceName.toList)
    (hkey : '\n' ∉ key.toList) :
    '\n' ∉ (linkId ifaceName key).toList := by
  rw [linkId, String.toList_append, String.toList_append, List.append_assoc, List.mem_append,
    List.mem_append, not_or, not_or]
  exact ⟨hiface, by decide, hkey⟩

theorem newline_createName {r : Request} {privateKey nextIP : String} {links : List LinkRecord}
    (hiface : '\n' ∉ w.ifaceName.toList)
    (hkey : '\n' ∉ (w.derivePublicKey privateKey).toList)
    (hname : ∀ name ∈ r.name, isSafeLinkName name = true) :
    '\n' ∉ (createInput w r privateKey nextIP links).displayName.toList := by
  dsimp only [createInput]
  cases hn : r.name.filter (· ≠ "") with
  | none => exact newline_linkId hiface hkey
  | some name =>
    have hsafe := hname name (Option.filter_eq_some_iff.mp hn).1
    refine newline_of_control fun c hc => ?_
    simpa using List.all_eq_true.mp hsafe c hc

theorem Called.sound (hw : OneLine w) (hworld : SoundWorld w) (h : Called w inp) :
    Sound inp w.isIP := by
  cases h with
  | @download links links' live d id linkMeta hlinks hlinks' hlive hstatus hlink hprivate hpublic
      hmeta =>
    rw [hstatus] at hlink
    obtain ⟨hname, -, himported, htunnel⟩ := statusLink_spec hlinks hlive hlink
    obtain ⟨p, hp, hrecord⟩ := List.mem_map.mp hlink
    have hkey := (hlive p.1 p.2 (Table.get?_of_mem hp)).1
    constructor
    · dsimp only [downloadInput]
      split
      · exact hname
      · rw [← hrecord]
        exact newline_linkId hw.ifaceName (newline_of_dumpText hkey)
    · exact newline_of_dumpText hprivate
    · intro k hk
      cases hk
      exact newline_of_dumpText hpublic
    · intro a ha
      exact newline_of_dumpText (htunnel a (List.mem_of_mem_head? ha))
    · intro x hx
      have hsafe : SafeEntry w.isIP linkMeta := by
        rcases hmeta with rfl | ⟨key, hget⟩
        · exact safeEntry_blank
        · have hsafe := safeEntry_of_get hlinks' key
          rw [hget] at hsafe
          exact hsafe
      exact (hsafe.dns x hx).1
    · exact himported
    · intro l hl
      dsimp only [downloadInput] at hl
      rw [hstatus] at hl
      exact (statusLink_spec hlinks hlive hl).2.1
  | @create links live r dns nets privateKey nextIP hub used hlinks hlive hname hdns hnets hprivate
      hpublic hhub hnext =>
    constructor
    · exact newline_createName hw.ifaceName (newline_of_dumpText hpublic) hname
    · exact newline_of_dumpText hprivate
    · intro k hk
      cases hk
      exact newline_of_dumpText hpublic
    · intro a ha
      cases ha
      rw [String.toList_append, String.toList_append, List.append_assoc, List.mem_append,
        List.mem_append, not_or, not_or]
      exact ⟨newline_nextIP hnext, by decide, newline_mask fun a ha => (hworld.addresses a ha).2⟩
    · exact fun x hx => (storedDns hdns x hx).1
    · exact fun net hnet => dumpText_of_stored (storedNets hnets net hnet)
    · exact fun l hl => (statusLink_spec hlinks hlive hl).2.1

/-! The lines of the file. -/

/-- The servers of the `DNS` line. -/
def dnsServers (w : HubWorld) (inp : ClientConfigInput) : List String :=
  (orIfEmpty inp.linkDns (orIfEmpty w.ifaceDns w.wgDns)).filter (isValidDnsEntry w.isIP)

/-- The value of the `AllowedIPs` line. -/
def allowedText (w : HubWorld) (inp : ClientConfigInput) : String :=
  if ", ".intercalate (clientAllowedIPs w inp) = "" then "0.0.0.0/0"
  else ", ".intercalate (clientAllowedIPs w inp)

theorem newline_intercalate (h : ∀ a ∈ nets, '\n' ∉ a.toList) :
    '\n' ∉ (", ".intercalate nets).toList := by
  intro hc
  rw [String.toList_intercalate] at hc
  rcases mem_of_mem_intercalate hc with hsep | ⟨l, hl, hmem⟩
  · exact absurd hsep (by decide)
  · obtain ⟨a, ha, rfl⟩ := List.mem_map.mp hl
    exact h a ha hmem

theorem newline_dnsServers (hw : OneLine w) (hworld : SoundWorld w) (h : Sound inp w.isIP) :
    ∀ d ∈ dnsServers w inp, '\n' ∉ d.toList := by
  intro d hd
  obtain ⟨hmem, hvalid⟩ := List.mem_filter.mp hd
  refine newline_dns hw ⟨?_, hvalid⟩
  unfold orIfEmpty at hmem
  split at hmem
  · split at hmem
    · exact hworld.wgDns d hmem
    · exact hworld.ifaceDns d hmem
  · exact h.linkDns d hmem

/-- A text of the list, as it is written. -/
theorem sound_allowed (hworld : SoundWorld w) (h : Sound inp w.isIP)
    (hfull : inp.fullTunnel = false) :
    ∀ net ∈ clientAllowedIPs w inp, net ∈ inp.importedNets ∧ DumpText net ∨ net ∈ w.ifaceAddresses ∧
    Trimmed net ∧ '\n' ∉ net.toList ∨
      StoredNet net := by
  intro net hnet
  rw [clientAllowedIPs, if_neg (by simp [hfull])] at hnet
  unfold orIfEmpty at hnet
  split at hnet
  · rcases List.mem_append.mp (List.mem_eraseDups.mp hnet) with hnet | hnet
    · exact .inr (.inl ⟨hnet, hworld.addresses net hnet⟩)
    · obtain ⟨l, hl, hnet⟩ := List.mem_flatMap.mp hnet
      exact .inr (.inr (h.exported l (List.mem_of_mem_filter hl) net hnet))
  · exact .inl ⟨hnet, h.imported net hnet⟩

theorem dumpChar_range {c : Char} (h : isDumpChar c = true) : 43 ≤ c.toNat ∧ c.toNat ≤ 122 := by
  simp only [isDumpChar, Bool.or_eq_true, decide_eq_true_eq] at h
  rcases h with ((((h | rfl) | rfl) | rfl) | rfl) | rfl
  · have hrange := range_of_isAlphanum h
    omega
  all_goals decide

theorem trimmed_of_dumpText {net : String} (h : DumpText net) : Trimmed net := by
  refine ⟨⟨h.1, fun hc => ?_⟩, trim_of_forall fun c hc => ?_⟩
  · have hcomma := h.2 _ hc
    revert hcomma
    decide
  · have hrange := dumpChar_range (h.2 c hc)
    simp only [isSpace, Bool.or_eq_false_iff, Bool.and_eq_false_iff, decide_eq_false_iff_not,
      beq_eq_false_iff_ne]
    omega

theorem hash_of_dumpText (h : DumpText a) : '#' ∉ a.toList := by
  intro hc
  have hhash := h.2 _ hc
  revert hhash
  decide

theorem stripped_of_dumpText {net : String} (h : DumpText net) : stripped net.toList = net.toList :=
  stripped_eq_self (hash_of_dumpText h)

theorem trimmed_allowed (hworld : SoundWorld w) (h : Sound inp w.isIP)
    (hfull : inp.fullTunnel = false) :
    ∀ net ∈ clientAllowedIPs w inp, Trimmed net := by
  intro net hnet
  rcases sound_allowed hworld h hfull net hnet with ⟨-, htext⟩ | ⟨-, htrimmed, -⟩ | hstored
  · exact trimmed_of_dumpText htext
  · exact htrimmed
  · exact trimmed_of_dumpText (dumpText_of_stored hstored)

theorem newline_allowedText (hworld : SoundWorld w) (h : Sound inp w.isIP) :
    '\n' ∉ (allowedText w inp).toList := by
  unfold allowedText
  split
  · decide
  · refine newline_intercalate fun net hnet => ?_
    cases hfull : inp.fullTunnel with
    | true =>
      rw [clientAllowedIPs, if_pos hfull] at hnet
      unfold fullTunnelIPs at hnet
      split at hnet
      · revert net
        decide
      · revert net
        decide
    | false =>
      rcases sound_allowed hworld h hfull net hnet with ⟨-, htext⟩ | ⟨-, -, hnewline⟩ | hstored
      · exact newline_of_dumpText htext
      · exact hnewline
      · exact newline_of_dumpText (dumpText_of_stored hstored)

/-- An optional line. -/
theorem forall_optional {o : Option String} {g : String → String} {P : String → Prop}
    (h : ∀ x ∈ o, P (g x)) :
    ∀ l ∈ o.toList.map g, P l := by
  intro l hl
  obtain ⟨x, hx, rfl⟩ := List.mem_map.mp hl
  exact h x (Option.mem_toList.mp hx)

theorem clientConfigLines_split (w : HubWorld) (inp : ClientConfigInput) : clientConfigLines w inp =
    ["# WireGuard peer config — " ++ inp.displayName, "# Generated by FloppyGuard", "",
      "[Interface]", "PrivateKey = " ++ inp.privateKey] ++
    (inp.publicKey.toList.map fun key =>
      "# PublicKey = " ++ key ++ "  # (registered on hub — do not share)") ++
    (inp.tunnelAddress.toList.map fun address => "Address = " ++ address) ++
    (if dnsServers w inp = [] then [] else ["DNS = " ++ ", ".intercalate (dnsServers w inp)]) ++
    ["", "[Peer]", "# Hub interface: " ++ w.ifaceName] ++
    (w.hubPublicKey.toList.map fun key => "PublicKey = " ++ key) ++
    ["Endpoint = " ++ w.hubHost ++ ":" ++ toString w.hubListenPort,
      "AllowedIPs = " ++ allowedText w inp, "PersistentKeepalive = 25"] := rfl

theorem newline_append {a b : String} (ha : '\n' ∉ a.toList) (hb : '\n' ∉ b.toList) :
    '\n' ∉ (a ++ b).toList := by
  rw [String.toList_append, List.mem_append]
  exact not_or.mpr ⟨ha, hb⟩

theorem newline_toString (n : ℕ) : '\n' ∉ (toString n).toList := by
  intro hc
  have hdigits : (toString n).toList = Nat.toDigits 10 n := Nat.toList_repr
  rw [hdigits] at hc
  exact absurd (mem_toDigits_isDigit hc) (by decide)

theorem newline_lines (hw : OneLine w) (hworld : SoundWorld w) (h : Sound inp w.isIP) :
    ∀ l ∈ clientConfigLines w inp, '\n' ∉ l.toList := by
  rw [clientConfigLines_split]
  simp only [List.forall_mem_append]
  refine ⟨⟨⟨⟨⟨⟨?_, ?_⟩, ?_⟩, ?_⟩, ?_⟩, ?_⟩, ?_⟩
  · simp only [List.forall_mem_cons]
    exact ⟨newline_append (by decide) h.displayName,
      by decide, by decide, by decide, newline_append (by decide) h.privateKey,
      List.forall_mem_nil _⟩
  · exact forall_optional fun k hk => newline_append (newline_append (by decide) (h.publicKey k hk))
      (by decide)
  · exact forall_optional fun a ha => newline_append (by decide) (h.tunnelAddress a ha)
  · split
    · exact List.forall_mem_nil _
    · exact List.forall_mem_singleton.mpr
        (newline_append (by decide) (newline_intercalate (newline_dnsServers hw hworld h)))
  · simp only [List.forall_mem_cons]
    exact ⟨by decide, by decide, newline_append (by decide) hw.ifaceName, List.forall_mem_nil _⟩
  · exact forall_optional fun k hk => newline_append (by decide) (hw.hubPublicKey k hk)
  · simp only [List.forall_mem_cons]
    exact ⟨newline_append (newline_append (newline_append (by decide) hw.hubHost) (by decide))
      (newline_toString _),
      newline_append (by decide) (newline_allowedText hworld h), by decide, List.forall_mem_nil _⟩

/-- What is read are the lines that were written. -/
theorem quickLines_content (hwritten : ∀ l ∈ clientConfigLines w inp, '\n' ∉ l.toList)
    (publicKey : String) :
    quickLines (buildClientConfig w publicKey inp).content = (clientConfigLines w inp).map
      String.toList ++ [[]] := by
  have hlines : ∀ l ∈ (clientConfigLines w inp).map String.toList ++ [[]], '\n' ∉ l := by
    intro l hl
    rcases List.mem_append.mp hl with hl | hl
    · obtain ⟨line, hline, rfl⟩ := List.mem_map.mp hl
      exact hwritten line hline
    · rw [List.mem_singleton.mp hl]
      exact List.not_mem_nil
  have hcontent : (buildClientConfig w publicKey inp).content.toList =
      ['\n'].intercalate ((clientConfigLines w inp).map String.toList ++ [[]]) := by
    rw [intercalate_append (by simp [clientConfigLines_split]) (List.cons_ne_nil _ _),
      buildClientConfig, String.toList_append, String.toList_intercalate]
    rfl
  rw [quickLines, hcontent, List.splitOn_intercalate _ hlines (by simp)]

/-! The keys of the file. -/

/-- The keys of some lines. -/
def keysOf (ls : List String) : List (List Char) :=
  ((ls.map String.toList).map quickKey).filter (· ≠ [])

theorem keysOf_append (as bs : List String) : keysOf (as ++ bs) = keysOf as ++ keysOf bs := by
  simp only [keysOf, List.map_append, List.filter_append]

theorem keysOf_entry (hf : Front f k) (hk : k.toList ≠ []) (t : String) :
    keysOf [f ++ t] = [k.toList.map Char.toLower] := by
  have hne : k.toList.map Char.toLower ≠ [] := fun he => hk (List.map_eq_nil_iff.mp he)
  simp [keysOf, quickKey_entry hf, hne]

theorem keysOf_optional {o : Option String} (hf : Front f k) (hk : k.toList ≠ []) :
    keysOf (o.toList.map fun x => f ++ x) = o.toList.map fun _ => k.toList.map Char.toLower := by
  cases o with
  | none => rfl
  | some x => exact keysOf_entry hf hk x

/-- A comment has no key. -/
theorem keysOf_comment {f : String} (hf : f.toList.head? = some '#') (t : String) :
    keysOf [f ++ t] = [] := by
  obtain ⟨rest, hrest⟩ : ∃ rest, f.toList = '#' :: rest := by
    cases hlist : f.toList with
    | nil => rw [hlist] at hf; cases hf
    | cons c rest =>
      rw [hlist] at hf
      cases hf
      exact ⟨rest, rfl⟩
  simp only [keysOf, List.map_cons, List.map_nil, String.toList_append, hrest, List.cons_append]
  rfl

/-- The keys of the interface section. -/
def fileInterfaceKeys (w : HubWorld) (inp : ClientConfigInput) : List (List Char) :=
  "privatekey".toList :: (inp.tunnelAddress.toList.map fun _ => "address".toList) ++
    if dnsServers w inp = [] then [] else ["dns".toList]

/-- The keys of the peer section. -/
def filePeerKeys (w : HubWorld) : List (List Char) :=
  (w.hubPublicKey.toList.map fun _ => "publickey".toList) ++
    ["endpoint".toList, "allowedips".toList, "persistentkeepalive".toList]

theorem keysOf_start (inp : ClientConfigInput) :
    keysOf ["# WireGuard peer config — " ++ inp.displayName, "# Generated by FloppyGuard", "",
    "[Interface]", "PrivateKey = " ++ inp.privateKey] =
      ["[interface]".toList, "privatekey".toList] := by
  have htitle : keysOf ["# WireGuard peer config — " ++ inp.displayName] = [] :=
    keysOf_comment (by decide) _
  have hfixed : keysOf ["# Generated by FloppyGuard", "", "[Interface]"] =
      ["[interface]".toList] := by decide
  have hkey : keysOf ["PrivateKey = " ++ inp.privateKey] = ["PrivateKey".toList.map Char.toLower] :=
    keysOf_entry (by decide) (by decide) _
  have hrest :=
    keysOf_append ["# Generated by FloppyGuard", "", "[Interface]"]
      ["PrivateKey = " ++ inp.privateKey]
  have hsplit := keysOf_append ["# WireGuard peer config — " ++ inp.displayName]
    (["# Generated by FloppyGuard", "", "[Interface]"] ++ ["PrivateKey = " ++ inp.privateKey])
  rw [hrest, htitle, hfixed, hkey] at hsplit
  exact hsplit

theorem keysOf_end (w : HubWorld) (allowed : String) :
    keysOf ["Endpoint = " ++ w.hubHost ++ ":" ++ toString w.hubListenPort,
    "AllowedIPs = " ++ allowed, "PersistentKeepalive = 25"] =
      ["endpoint".toList, "allowedips".toList, "persistentkeepalive".toList] := by
  have hendpoint : keysOf ["Endpoint = " ++ w.hubHost ++ ":" ++ toString w.hubListenPort] =
      ["Endpoint".toList.map Char.toLower] := by
    rw [String.append_assoc, String.append_assoc]
    exact keysOf_entry (by decide) (by decide) _
  have hallowed : keysOf ["AllowedIPs = " ++ allowed] = ["AllowedIPs".toList.map Char.toLower] :=
    keysOf_entry (by decide) (by decide) _
  have hkeepalive : keysOf ["PersistentKeepalive = 25"] = ["persistentkeepalive".toList] := by
    decide
  have hrest := keysOf_append ["AllowedIPs = " ++ allowed] ["PersistentKeepalive = 25"]
  have hsplit := keysOf_append ["Endpoint = " ++ w.hubHost ++ ":" ++ toString w.hubListenPort]
    (["AllowedIPs = " ++ allowed] ++ ["PersistentKeepalive = 25"])
  rw [hrest, hendpoint, hallowed, hkeepalive] at hsplit
  exact hsplit

theorem keysOf_lines (w : HubWorld) (inp : ClientConfigInput) :
    keysOf (clientConfigLines w inp) = "[interface]".toList :: fileInterfaceKeys w inp ++
      "[peer]".toList :: filePeerKeys w := by
  have hcomment : keysOf (inp.publicKey.toList.map fun key =>
      "# PublicKey = " ++ key ++ "  # (registered on hub — do not share)") = [] := by
    cases inp.publicKey with
    | none => rfl
    | some key =>
      change keysOf ["# PublicKey = " ++ key ++ "  # (registered on hub — do not share)"] = []
      rw [String.append_assoc]
      exact keysOf_comment (by decide) _
  have haddress : keysOf (inp.tunnelAddress.toList.map fun address => "Address = " ++ address) =
      inp.tunnelAddress.toList.map fun _ => "Address".toList.map Char.toLower :=
        keysOf_optional (by decide) (by decide)
  have hdns : keysOf (if dnsServers w inp = [] then []
    else ["DNS = " ++ ", ".intercalate (dnsServers w inp)]) =
      if dnsServers w inp = [] then [] else ["DNS".toList.map Char.toLower] := by
    split
    · rfl
    · exact keysOf_entry (by decide) (by decide) _
  have hmiddle : keysOf ["", "[Peer]", "# Hub interface: " ++ w.ifaceName] = ["[peer]".toList] := by
    have hlast : keysOf ["# Hub interface: " ++ w.ifaceName] = [] := keysOf_comment (by decide) _
    have hfixed : keysOf ["", "[Peer]"] = ["[peer]".toList] := by decide
    have hsplit := keysOf_append ["", "[Peer]"] ["# Hub interface: " ++ w.ifaceName]
    rw [hfixed, hlast] at hsplit
    exact hsplit
  have hpeer : keysOf (w.hubPublicKey.toList.map fun key => "PublicKey = " ++ key) =
      w.hubPublicKey.toList.map fun _ => "PublicKey".toList.map Char.toLower :=
        keysOf_optional (by decide) (by decide)
  rw [clientConfigLines_split]
  simp only [keysOf_append]
  rw [keysOf_start, hcomment, haddress, hdns, hmiddle, hpeer, keysOf_end, fileInterfaceKeys,
    filePeerKeys]
  simp only [List.append_assoc, List.cons_append, List.nil_append]
  rfl

theorem quickKeys_content (hwritten : ∀ l ∈ clientConfigLines w inp, '\n' ∉ l.toList)
    (publicKey : String) :
    quickKeys (buildClientConfig w publicKey inp).content =
      "[interface]".toList :: fileInterfaceKeys w inp ++ "[peer]".toList :: filePeerKeys w := by
  have hlast : ([[]].map quickKey).filter (· ≠ []) = [] := by decide
  rw [quickKeys, quickLines_content hwritten, List.map_append, List.filter_append, hlast,
    List.append_nil]
  exact keysOf_lines w inp

theorem fileKeys_spec (w : HubWorld) (inp : ClientConfigInput) :
    fileInterfaceKeys w inp ⊆ interfaceKeys ∧ filePeerKeys w ⊆ peerKeys ∧
    (fileInterfaceKeys w inp ++ filePeerKeys w).Nodup ∧
    ("[interface]".toList :: fileInterfaceKeys w inp ++ "[peer]".toList ::
      filePeerKeys w).Nodup := by
  have hoptional : ∀ (o : Option String) (x : List Char),
      (o.toList.map fun _ => x) = if o = none then [] else [x] := by
    intro o x
    cases o with
    | none => rfl
    | some s => rfl
  rw [fileInterfaceKeys, filePeerKeys, hoptional, hoptional]
  split_ifs
  all_goals decide

/-- A key is that of one line at most. -/
theorem line_of_key {content : String} {l l' : List Char} (hkeys : (quickKeys content).Nodup)
    (hl : l ∈ quickLines content)
    (hl' : l' ∈ quickLines content) (hkey : quickKey l = quickKey l') (hne : quickKey l' ≠ []) :
    l = l' := by
  have hnodup : (((quickLines content).filter fun l => quickKey l ≠ []).map quickKey).Nodup := by
    rw [quickKeys, List.filter_map] at hkeys
    exact hkeys
  refine List.inj_on_of_nodup_map hnodup (List.mem_filter.mpr ⟨hl, ?_⟩)
    (List.mem_filter.mpr ⟨hl', decide_eq_true hne⟩) hkey
  exact decide_eq_true (hkey ▸ hne)

/-! The networks of the file. -/

/-- The `AllowedIPs` line. -/
def allowedLine (w : HubWorld) (inp : ClientConfigInput) : List Char :=
  ("AllowedIPs = " ++ allowedText w inp).toList

theorem front_allowed : Front "AllowedIPs = " "AllowedIPs" := by decide

theorem quickKey_allowedLine (w : HubWorld) (inp : ClientConfigInput) :
    quickKey (allowedLine w inp) = "allowedips".toList := by
  rw [allowedLine, String.toList_append, quickKey_entry front_allowed]
  decide

theorem allowedLine_mem (hwritten : ∀ l ∈ clientConfigLines w inp, '\n' ∉ l.toList)
    (publicKey : String) :
    allowedLine w inp ∈ quickLines (buildClientConfig w publicKey inp).content := by
  rw [quickLines_content hwritten]
  refine List.mem_append_left _ (List.mem_map_of_mem ?_)
  rw [clientConfigLines_split]
  exact List.mem_append_right _ (.tail _ (.head _))

/-- There is one line with networks. -/
theorem eq_allowedLine (hwritten : ∀ l ∈ clientConfigLines w inp, '\n' ∉ l.toList)
    {publicKey : String}
    (hline : line ∈ quickLines (buildClientConfig w publicKey inp).content)
    (hkey : quickKey line = "allowedips".toList) :
    line = allowedLine w inp := by
  obtain ⟨-, -, -, hall⟩ := fileKeys_spec w inp
  have hkeys := quickKeys_content hwritten publicKey
  have hne : quickKey (allowedLine w inp) ≠ [] := by
    rw [quickKey_allowedLine]
    decide
  exact line_of_key (hkeys.symm ▸ hall) hline (allowedLine_mem hwritten publicKey)
    (hkey.trans (quickKey_allowedLine w inp).symm) hne

theorem fileOk_iff (hwritten : ∀ l ∈ clientConfigLines w inp, '\n' ∉ l.toList)
    (publicKey : String) :
    FileOk (buildClientConfig w publicKey inp).content inp.fullTunnel ↔
      (inp.fullTunnel = false → ∀ part ∈ allowedParts (allowedLine w inp), ∀ c,
        canonicalCidr part = some c → minNetworkPrefix ≤ c.len) := by
  obtain ⟨hiface, hpeer, hnodup, -⟩ := fileKeys_spec w inp
  constructor
  · intro hok hfull part hpart
    exact hok.noDefault hfull _ (allowedLine_mem hwritten publicKey) (quickKey_allowedLine w inp)
      part hpart
  · intro hparts
    refine ⟨⟨_, _, quickKeys_content hwritten publicKey, hiface, hpeer, hnodup⟩,
      fun hfull line hline hkey => ?_⟩
    rw [eq_allowedLine hwritten hline hkey]
    exact hparts hfull

/-- The parts as they stand after the key. -/
theorem allowedParts_line (w : HubWorld) (inp : ClientConfigInput) :
    allowedParts (allowedLine w inp) =
      ((' ' :: stripped (allowedText w inp).toList).splitOn ',').map String.ofList := by
  rw [allowedParts, allowedLine, String.toList_append, afterEq_entry front_allowed]

/-- The networks that are read from a list of them: the default route where its text is empty. -/
def readNets (nets : List String) : List String :=
  if ", ".intercalate nets = "" then ["0.0.0.0/0"]
  else (untilHash (nets.map String.toList)).map String.ofList

/-- What stands in the line are the networks of the list. -/
theorem part_iff_net (hcomma : ∀ net ∈ clientAllowedIPs w inp, ',' ∉ net.toList) {c : Cidr} :
    (∃ part ∈ allowedParts (allowedLine w inp), canonicalCidr part = some c) ↔
      ∃ net ∈ readNets (clientAllowedIPs w inp), canonicalCidr net = some c := by
  have hparts : (allowedParts (allowedLine w inp)).map (trim ·.toList) =
      (readNets (clientAllowedIPs w inp)).map (trim ·.toList) := by
    have htoList : (trim ·.toList) ∘ String.ofList = trim := by
      funext s
      exact congrArg trim String.toList_ofList
    rw [allowedParts_line, List.map_map, htoList, map_trim_splitOn_space (by decide), allowedText,
      readNets]
    split
    · decide
    · next hne =>
      have hnil : (clientAllowedIPs w inp).map String.toList ≠ [] := by
        intro hnil
        rw [List.map_eq_nil_iff.mp hnil] at hne
        exact hne rfl
      rw [String.toList_intercalate, List.map_map, htoList]
      exact map_trim_parts hnil fun l hl => by
        obtain ⟨net, hnet, rfl⟩ := List.mem_map.mp hl
        exact hcomma net hnet
  have hread (xs ys : List String) (h : xs.map (trim ·.toList) = ys.map (trim ·.toList))
    (hx : ∃ x ∈ xs, canonicalCidr x = some c) :
      ∃ y ∈ ys, canonicalCidr y = some c := by
    obtain ⟨x, hx, hc⟩ := hx
    obtain ⟨y, hy, he⟩ := List.mem_map.mp (h ▸ List.mem_map_of_mem hx)
    exact ⟨y, hy, (canonicalCidr_congr he).trans hc⟩
  exact ⟨hread _ _ hparts, hread _ _ hparts.symm⟩

theorem allowed_ne_nil (hfull : inp.fullTunnel = false) : clientAllowedIPs w inp ≠ [] ↔
    inp.importedNets ≠ [] ∨ w.ifaceAddresses ≠ [] ∨ ∃ l ∈ inp.links, l.id ≠ inp.excludeLinkId ∧
    l.exportedNetworks ≠ [] := by
  have hflat : (inp.links.filter (·.id ≠ inp.excludeLinkId)).flatMap LinkRecord.exportedNetworks ≠
    [] ↔
      ∃ l ∈ inp.links, l.id ≠ inp.excludeLinkId ∧ l.exportedNetworks ≠ [] := by
    simp only [ne_eq, List.flatMap_eq_nil_iff, List.mem_filter, decide_eq_true_eq, not_forall,
      and_imp, exists_prop]
  have hdups : ∀ nets : List String, nets.eraseDups ≠ [] ↔ nets ≠ [] := by
    intro nets
    simp only [ne_eq, List.eq_nil_iff_forall_not_mem, List.mem_eraseDups]
  rw [clientAllowedIPs, if_neg (by simp [hfull]), orIfEmpty]
  cases himported : inp.importedNets with
  | nil =>
    rw [List.isEmpty_nil, if_pos rfl, hdups, ne_eq, List.append_eq_nil_iff, not_and_or, ← ne_eq,
      ← ne_eq, hflat]
    simp
  | cons net nets => simp

/-- The networks of a list of its own are all that the client is given. -/
theorem clientAllowedIPs_imported (hfull : inp.fullTunnel = false) (hne : inp.importedNets ≠ []) :
    clientAllowedIPs w inp = inp.importedNets := by
  rw [clientAllowedIPs, if_neg (by simp [hfull]), orIfEmpty, if_neg (by simpa using hne)]

theorem intercalate_ne_empty (hne : nets ≠ []) (h : ∀ net ∈ nets, net ≠ "") :
    ", ".intercalate nets ≠ "" := by
  obtain ⟨net, rest, rfl⟩ := List.exists_cons_of_ne_nil hne
  intro hempty
  have hinfix : net.toList <:+: (", ".intercalate (net :: rest)).toList := by
    rw [String.toList_intercalate]
    exact infix_intercalate (List.mem_map_of_mem List.mem_cons_self)
  rw [hempty] at hinfix
  exact h net List.mem_cons_self (String.toList_inj.mp (List.infix_nil.mp hinfix))

theorem mem_readNets (hne : nets ≠ []) (h : ∀ net ∈ nets, net ≠ "") {net : String}
    (hnet : net ∈ readNets nets) :
    ∃ net' ∈ nets, net = beforeHash net' := by
  rw [readNets, if_neg (intercalate_ne_empty hne h)] at hnet
  obtain ⟨s, hs, rfl⟩ := List.mem_map.mp hnet
  obtain ⟨l, hl, rfl⟩ := mem_untilHash hs
  obtain ⟨net', hnet', rfl⟩ := List.mem_map.mp hl
  exact ⟨net', hnet', rfl⟩

/-- A list without comments is read as it is. -/
theorem readNets_eq_self (hne : nets ≠ []) (h : ∀ net ∈ nets, net ≠ "")
    (hhash : ∀ net ∈ nets, '#' ∉ net.toList) : readNets nets = nets := by
  rw [readNets, if_neg (intercalate_ne_empty hne h), untilHash_eq_self, List.map_map]
  · exact (List.map_congr_left fun _ _ => String.ofList_toList).trans (List.map_id _)
  · intro l hl
    obtain ⟨net, hnet, rfl⟩ := List.mem_map.mp hl
    exact hhash net hnet

theorem parts_ok_iff (hworld : SoundWorld w) (h : Sound inp w.isIP)
    (hconf : ∀ a ∈ w.ifaceAddresses, ∀ c, canonicalCidr (beforeHash a) = some c →
      minNetworkPrefix ≤ c.len) (hfull : inp.fullTunnel = false) :
    (∀ part ∈ allowedParts (allowedLine w inp), ∀ c, canonicalCidr part = some c →
      minNetworkPrefix ≤ c.len) ↔ HasNets w inp := by
  have htrimmed := trimmed_allowed hworld h hfull
  have hne : ∀ net ∈ clientAllowedIPs w inp, net ≠ "" := fun net hnet => (htrimmed net hnet).1.1
  have hread : (∀ part ∈ allowedParts (allowedLine w inp), ∀ c, canonicalCidr part = some c →
    minNetworkPrefix ≤ c.len) ↔
      ∀ net ∈ readNets (clientAllowedIPs w inp), ∀ c, canonicalCidr net = some c →
        minNetworkPrefix ≤ c.len := by
    have hiff (c : Cidr) : (∃ part ∈ allowedParts (allowedLine w inp),
      canonicalCidr part = some c) ↔
        ∃ net ∈ readNets (clientAllowedIPs w inp), canonicalCidr net = some c :=
      part_iff_net fun net hnet => (htrimmed net hnet).1.2
    constructor
    · intro hparts net hnet c hc
      obtain ⟨part, hpart, hc'⟩ := (hiff c).mpr ⟨net, hnet, hc⟩
      exact hparts part hpart c hc'
    · intro hnets part hpart c hc
      obtain ⟨net, hnet, hc'⟩ := (hiff c).mp ⟨part, hpart, hc⟩
      exact hnets net hnet c hc'
  rw [hread]
  constructor
  · intro hnets
    refine ⟨(allowed_ne_nil hfull).mp fun hnil => ?_, fun net hnet c hc => ?_⟩
    · -- the fallback
      have hmem : "0.0.0.0/0" ∈ readNets (clientAllowedIPs w inp) := by
        rw [hnil]
        decide
      have hlen : (canonicalCidr "0.0.0.0/0").map (·.len) = some 0 := by decide
      obtain ⟨c, hc, hzero⟩ := Option.map_eq_some_iff.mp hlen
      have hshort := hnets _ hmem c hc
      rw [hzero] at hshort
      exact absurd hshort (by decide)
    · have himported := clientAllowedIPs_imported (w := w) hfull (List.ne_nil_of_mem hnet)
      have hlist : readNets (clientAllowedIPs w inp) = inp.importedNets := by
        rw [readNets_eq_self (himported ▸ List.ne_nil_of_mem hnet) hne, himported]
        intro net' hnet'
        exact hash_of_dumpText (h.imported net' (himported ▸ hnet'))
      exact hnets net (hlist ▸ hnet) c hc
  · intro hnets net hnet c hc
    obtain ⟨net', hnet', rfl⟩ := mem_readNets ((allowed_ne_nil hfull).mpr hnets.1) hne hnet
    have hplain (hdump : DumpText net') : canonicalCidr net' = some c := by
      rw [beforeHash, stripped_of_dumpText hdump, String.ofList_toList] at hc
      exact hc
    rcases sound_allowed hworld h hfull net' hnet' with ⟨hmem, htext⟩ | ⟨hmem, -⟩ | hstored
    · exact hnets.2 net' hmem c (hplain htext)
    · exact hconf net' hmem c hc
    · have hcanonical := hplain (dumpText_of_stored hstored)
      obtain ⟨c', rfl, hlen⟩ := hstored
      rw [canonicalCidr_render] at hcanonical
      cases hcanonical
      exact hlen

/-- The sections always stand as they should. The networks do where the client is full tunnel or
there is something to write. -/
theorem client_file_ok_iff (hw : OneLine w) (hiface : Written (interfaceFields w.isIP) iface)
    (hconf : ∀ a ∈ confAddresses conf, ∀ c, canonicalCidr (beforeHash a) = some c →
      minNetworkPrefix ≤ c.len)
    (h : Called (reads w conf env iface) inp) (publicKey : String) :
    FileOk (buildClientConfig (reads w conf env iface) publicKey inp).content inp.fullTunnel ↔
      (inp.fullTunnel = false → HasNets (reads w conf env iface) inp) := by
  have hworld : SoundWorld (reads w conf env iface) := soundWorld_reads hiface
  have hline : OneLine (reads w conf env iface) :=
    ⟨hw.ifaceName, hw.hubHost, hw.hubPublicKey, hw.isIP⟩
  have hsound := h.sound hline hworld
  rw [fileOk_iff (newline_lines hline hworld hsound)]
  constructor
  · intro hparts hfull
    exact (parts_ok_iff hworld hsound hconf hfull).mp (hparts hfull)
  · intro hnets hfull
    exact (parts_ok_iff hworld hsound hconf hfull).mpr (hnets hfull)

/-! A hub without a dns server of its own. -/

def sampleHub : HubWorld where
  ifaceName := "wg0"
  ifaceAddresses := []
  ifaceDns := []
  hubPublicKey := some "hub="
  hubListenPort := 51820
  hubHost := "vpn.lan"
  wgDns := []
  isIP := fun _ => false
  derivePublicKey := fun privateKey => privateKey ++ "="

def sampleConf : String := "[Interface]\nAddress = 10.10.0.1/24\nListenPort = 51820\n"

/-- `Address` is not set here. -/
def bareConf : String := "[Interface]\nListenPort = 51820\n"

def sampleRequest : Request := ⟨some "phone", [], false, none, []⟩

/-- The first client of the hub. -/
def sampleInput (conf : String) : ClientConfigInput :=
  createInput (reads sampleHub conf "" .empty) sampleRequest "key" "10.10.0.2" []

theorem oneLine_sampleHub : OneLine sampleHub where
  ifaceName := by decide
  hubHost := by decide
  hubPublicKey := by
    intro k hk
    cases hk
    decide
  isIP := by
    intro s hs
    cases hs

theorem called_sample {conf : String} {hub : HubAddress}
    (hhub : hubAddress? (confAddresses conf) = some hub)
    (hnext : hub.nextIP [] = some "10.10.0.2") :
    Called (reads sampleHub conf "" .empty) (sampleInput conf) := by
  let w := reads sampleHub conf "" .empty
  have hlinks : WrittenLinks w.isIP .empty := by
    intro id e he
    cases he
  have hlive : Dumped .empty := by
    intro key ips hips
    cases hips
  have hname : ∀ name ∈ sampleRequest.name, isSafeLinkName name = true := by
    intro name hname
    cases hname
    decide
  have hdns : sanitizeDnsArray w.isIP .null = .ok sampleRequest.dnsList := rfl
  have hnets : sanitizeNetworkArray .null = .ok sampleRequest.importedNets := rfl
  have hprivate : DumpText "key" := ⟨by decide, by decide⟩
  have hpublic : DumpText (w.derivePublicKey "key") := by
    change DumpText "key="
    exact ⟨by decide, by decide⟩
  exact .create hlinks hlive hname hdns hnets hprivate hpublic hhub hnext

theorem hub_sampleConf : ∃ hub, hubAddress? (confAddresses sampleConf) = some hub ∧
    hub.nextIP [] = some "10.10.0.2" := by
  have hnext : ((hubAddress? (confAddresses sampleConf)).bind fun hub => hub.nextIP []) =
      some "10.10.0.2" := by decide +kernel
  exact Option.bind_eq_some_iff.mp hnext

theorem hub_bareConf :
    ∃ hub, hubAddress? (confAddresses bareConf) = some hub ∧ hub.nextIP [] = some "10.10.0.2" := by
  have hnext : ((hubAddress? (confAddresses bareConf)).bind fun hub => hub.nextIP []) =
      some "10.10.0.2" := by decide +kernel
  exact Option.bind_eq_some_iff.mp hnext

theorem first_client_file_ok :
    FileOk
      (buildClientConfig (reads sampleHub sampleConf "" .empty) "key="
        (sampleInput sampleConf)).content
    (sampleInput sampleConf).fullTunnel := by
  obtain ⟨hub, hhub, hnext⟩ := hub_sampleConf
  have haddress : confAddresses sampleConf = ["10.10.0.1/24"] := by decide +kernel
  refine (client_file_ok_iff oneLine_sampleHub .empty ?_ (called_sample hhub hnext) "key=").mpr
    fun _ => ⟨?_, ?_⟩
  · rw [haddress]
    intro a ha c hc
    cases List.mem_singleton.mp ha
    have hlen : (canonicalCidr (beforeHash "10.10.0.1/24")).map (·.len) = some 24 := by
      decide +kernel
    rw [hc, Option.map_some, Option.some.injEq] at hlen
    rw [hlen]
    decide
  · refine .inr (.inl ?_)
    change confAddresses sampleConf ≠ []
    rw [haddress]
    exact List.cons_ne_nil _ _
  · intro net hnet
    cases hnet

/-- Where the hub's conf has no address, the first client is given a default route. -/
theorem default_route_of_bareConf :
    Called (reads sampleHub bareConf "" .empty) (sampleInput bareConf) ∧
    (sampleInput bareConf).fullTunnel = false ∧
    ¬ FileOk
      (buildClientConfig (reads sampleHub bareConf "" .empty) "key=" (sampleInput bareConf)).content
      (sampleInput bareConf).fullTunnel := by
  obtain ⟨hub, hhub, hnext⟩ := hub_bareConf
  refine ⟨called_sample hhub hnext, rfl, fun hok => ?_⟩
  have hworld : SoundWorld (reads sampleHub bareConf "" .empty) := soundWorld_reads .empty
  have hline : OneLine (reads sampleHub bareConf "" .empty) :=
    ⟨by decide, by decide, oneLine_sampleHub.hubPublicKey, oneLine_sampleHub.isIP⟩
  have hmem :=
    allowedLine_mem (newline_lines hline hworld ((called_sample hhub hnext).sound hline hworld))
      "key="
  have haddresses : confAddresses bareConf = [] := by decide +kernel
  have hnil : clientAllowedIPs (reads sampleHub bareConf "" .empty) (sampleInput bareConf) =
      [] := by
    rw [clientAllowedIPs]
    change (confAddresses bareConf ++ []).eraseDups = []
    rw [haddresses]
    rfl
  rw [allowedLine, allowedText, hnil] at hmem
  have hlen : (canonicalCidr " 0.0.0.0/0").map (·.len) = some 0 := by decide
  obtain ⟨c, hc, hzero⟩ := Option.map_eq_some_iff.mp hlen
  have hshort := hok.noDefault rfl _ hmem (by decide) " 0.0.0.0/0" (by decide) c hc
  rw [hzero] at hshort
  exact absurd hshort (by decide)

end FloppyGuard.WireGuard.ClientFile
