import FloppyGuard.Ingress.Rules
import FloppyGuard.WireGuard.ClientFile

/-! What a VPN client can reach: by the config it is given, and by the check of the releases. -/
namespace FloppyGuard.ClientReach

open WireGuard WireGuard.ClientFile
open AgentSync (quickKey quickLines)

/-! The status. -/

/-- `splitLinkId`, the key. -/
def linkKey (id : String) : Option String :=
  if ':' ∈ id.toList then some (String.ofList ((id.toList.dropWhile (· ≠ ':')).tail)) else none

structure StatusLink extends LinkRecord where
  interfaceName : String
  dns : List String
  fullTunnel : Bool
  platform : Option String

/-- The addresses of the interfaces by name, and the links of all interfaces. -/
structure WgStatus where
  interfaces : Table String (List String)
  links : List StatusLink
  ids : (links.map (·.id)).Nodup
  named : ∀ l ∈ links, l.id ≠ ""

namespace WgStatus

variable (s : WgStatus) (l : StatusLink)

/-- `ifaceAddrs.get(l.interfaceName) || []` -/
def addresses : List String := (s.interfaces.get? l.interfaceName).getD []

/-- The links beside `l` on its interface. -/
def others : List StatusLink :=
  s.links.filter fun o => o.id ≠ l.id ∧ o.interfaceName = l.interfaceName

end WgStatus

/-! The check. -/

/-- The tunnel hosts of a client. -/
def StatusLink.hosts (l : StatusLink) : List Cidr :=
  (((l.allowedIps ++ l.tunnelAddresses).filterMap fun c =>
    canonicalCidr (if '/' ∈ c.toList then c else c ++ "/32")).filter
    (·.len = 32)).eraseDups

section Check

variable (s : WgStatus) (l : StatusLink)

/-- The networks of a client, as they are written. -/
def clientNets : List String :=
  if l.fullTunnel then ["0.0.0.0/0"]
  else if l.importedNetworks ≠ [] then l.importedNetworks
  else s.addresses l ++ (s.others l).flatMap fun o =>
    o.exportedNetworks ++ if o.type = "client" then [] else o.importedNetworks

def listedNets : List Cidr :=
  ((clientNets s l).filterMap canonicalCidr).eraseDups.filter (·.len ≠ 32)

structure VpnClient where
  id : String
  label : String
  hosts : List Cidr
  nets : List Cidr

def clientLabel : String :=
  if l.name ≠ "" then l.name else String.ofList (((linkKey l.id).getD l.id).toList.take 8)

def vpnClient : Option VpnClient :=
  if l.type ≠ "client" ∨ l.id = "" ∨ l.hosts = [] ∨ listedNets s l = [] then none
  else some ⟨l.id, clientLabel l, l.hosts, listedNets s l⟩

def vpnClientsFromStatus : List VpnClient := s.links.filterMap (vpnClient s)

end Check

/-- The rule that a gap suggests. -/
structure Suggestion where
  name : String
  sources : List Cidr
  destinations : List Cidr
  ports : List Ingress.Port

structure Gap where
  kind : String
  id : String
  label : String
  host : Cidr
  port : Option ℕ
  proto : String
  enabled : Bool
  suggestion : Suggestion

/-- The part of a network of the client that is the agent's. -/
def gapNet (own net : Cidr) : Option Cidr :=
  if own.Contains net then some net else if net.Contains own then some own else none

/-- An enabled rule with the host as source that meets the network. -/
def ruleMeets (host dst : Cidr) (r : Ingress.Rule) : Bool :=
  r.enabled && r.sources.any (cidrContains · (Cidr.render host)) &&
    (r.destinations.isEmpty || r.destinations.any fun d => cidrContains d (Cidr.render dst) ||
      cidrContains (Cidr.render dst) d)

def clientGap (c : VpnClient) (dst host : Cidr) : Gap where
  kind := "vpn-client"
  id := c.id ++ "|" ++ Cidr.render dst
  label := c.label ++ " (" ++ String.ofList (intToIp host.base) ++ ")"
  host := dst
  port := none
  proto := "tcp"
  enabled := true
  suggestion :=
    { name := String.ofList (("VPN-Client " ++ c.label).toList.take 100)
      sources := [host]
      destinations := [dst]
      ports := [] }

def clientIngressGaps (clients : List VpnClient) (ownNets : List Cidr) (rules : List Ingress.Rule) :
    List Gap :=
  clients.flatMap fun c => c.nets.flatMap fun net => ownNets.flatMap fun own =>
    ((gapNet own net).toList.flatMap fun dst =>
      (c.hosts.filter fun host => !rules.any (ruleMeets host dst)).map (clientGap c dst))

/-! The config. -/

section Config

variable (w : HubWorld) (s : WgStatus) (l : StatusLink) (privateKey : String)

/-- The surroundings of the link's interface. -/
def linkWorld : HubWorld := { w with ifaceName := l.interfaceName, ifaceAddresses := s.addresses l }

/-- The arguments of `_generatePeerConfigUncached`. -/
def clientInput : ClientConfigInput where
  displayName := if l.name ≠ "" then l.name else l.id
  privateKey
  publicKey := some (w.derivePublicKey privateKey)
  tunnelAddress := l.tunnelAddresses.head?
  linkDns := l.dns
  fullTunnel := l.fullTunnel
  platform := l.platform
  importedNets := l.importedNetworks
  links := (s.links.filter (·.interfaceName = l.interfaceName)).map StatusLink.toLinkRecord
  excludeLinkId := l.id

def clientContent : String :=
  (buildClientConfig (linkWorld w s l) (w.derivePublicKey privateKey)
    (clientInput w s l privateKey)).content

/-- The networks to be written where the client is not full tunnel. -/
def baseNets : List String :=
  if l.importedNetworks ≠ [] then l.importedNetworks
  else (s.addresses l ++ (s.others l).flatMap fun o => o.exportedNetworks).eraseDups

end Config

/-- The file sends what is for `x` into the tunnel. -/
def Covers (content : String) (x : Ip) : Prop :=
  ∃ line ∈ quickLines content, quickKey line = "allowedips".toList ∧ ∃ part ∈ allowedParts line,
    ∃ c, canonicalCidr part = some c ∧ x ∈ c

/-- No enabled rule with the host as source overlaps the network. -/
def Unreleased (rules : List Ingress.Rule) (host own : Cidr) : Prop :=
  ∀ r ∈ rules, r.enabled = true → (∃ src ∈ r.sources, cidrContains src (Cidr.render host) = true) →
    r.destinations ≠ [] ∧ ∀ d ∈ r.destinations, ∀ c, canonicalCidr d = some c → ¬ c.Overlaps own

structure KnowsReach (s : WgStatus) (l : StatusLink) (content : String) : Prop where
  listed : ∀ x, Covers content x → (∀ h ∈ l.hosts, x ∉ h) → ∃ c ∈ vpnClientsFromStatus s,
    c.id = l.id ∧ ∃ n ∈ c.nets, x ∈ n
  gaps : ∀ ownNets rules, ∀ own ∈ ownNets, ∀ host ∈ l.hosts,
    (∃ x ∈ own, Covers content x ∧ ∀ h ∈ l.hosts, x ∉ h) →
    Unreleased rules host own → ∃ g ∈ clientIngressGaps (vpnClientsFromStatus s) ownNets rules,
      (∃ dst, own.Contains dst ∧ g.host = dst ∧ g.id = l.id ++ "|" ++ Cidr.render dst) ∧
        g.suggestion.sources = [host]

/-! The condition. -/

section Condition

variable (s : WgStatus) (l : StatusLink)

/-- The texts a config gets its networks from: the reach list, else the addresses of the interface
and what the other links export. -/
def given : List String :=
  if l.importedNetworks ≠ [] then l.importedNetworks
  else s.addresses l ++ (s.others l).flatMap fun o => o.exportedNetworks

/-- What the check counts as well where there is no reach list. -/
def besides : List String :=
  if l.importedNetworks ≠ [] then [] else (s.others l).flatMap fun o => if o.type = "client" then []
    else o.importedNetworks

/-- `x` is a tunnel host of the client, or in a network that is more than a single address. -/
def Within (x : Ip) : Prop :=
  (∃ h ∈ l.hosts, x ∈ h) ∨ ∃ net ∈ given s l ++ besides s l, ∃ c, canonicalCidr net = some c ∧
    c.len ≠ 32 ∧ x ∈ c

/-- The texts up to the first one with a comment, which hides all behind it. -/
def uncommented : List String → List String
  | [] => []
  | t :: ts => t :: if '#' ∈ t.toList then [] else uncommented ts

/-- There is a network to write, and only networks are written, without comments, as far as their
addresses are not within others. -/
structure OnlyNetworks : Prop where
  written : given s l = [] → ∀ x, Within s l x
  plain : ∀ net ∈ uncommented (given s l), ∀ c, canonicalCidr (beforeHash net) = some c →
    '#' ∈ net.toList ∨ c.len = 32 →
    ∀ x ∈ c, Within s l x

end Condition

variable {w : HubWorld} {s : WgStatus} {l : StatusLink} {c : VpnClient} {n host own dst : Cidr}
  {x : Ip} {privateKey : String}
  {rules : List Ingress.Rule} {ownNets : List Cidr}

/-! What the check lists. -/

theorem mem_listedNets :
    n ∈ listedNets s l ↔ n.len ≠ 32 ∧ ∃ t ∈ clientNets s l, canonicalCidr t = some n := by
  rw [listedNets, List.mem_filter, List.mem_eraseDups, List.mem_filterMap, decide_eq_true_eq,
    and_comm]

theorem client_of_listed (hl : l ∈ s.links) (htype : l.type = "client") (hhosts : l.hosts ≠ [])
    (hn : listedNets s l ≠ []) :
    (⟨l.id, clientLabel l, l.hosts, listedNets s l⟩ : VpnClient) ∈ vpnClientsFromStatus s := by
  refine List.mem_filterMap.mpr ⟨l, hl, if_neg ?_⟩
  rintro (h | h | h | h)
  · exact h htype
  · exact s.named l hl h
  · exact hhosts h
  · exact hn h

theorem link_of_client (hc : c ∈ vpnClientsFromStatus s) (hl : l ∈ s.links) (hid : c.id = l.id) :
    c.nets = listedNets s l := by
  obtain ⟨o, ho, hc⟩ := List.mem_filterMap.mp hc
  obtain ⟨-, hc⟩ := Option.ite_none_left_eq_some.mp hc
  cases hc
  rw [List.inj_on_of_nodup_map s.ids ho hl hid]

/-- A network that is listed is in the list of the client. -/
theorem listed_iff (hl : l ∈ s.links) (htype : l.type = "client") (hhosts : l.hosts ≠ []) :
    (∃ c ∈ vpnClientsFromStatus s, c.id = l.id ∧ ∃ n ∈ c.nets, x ∈ n) ↔ ∃ n ∈ listedNets s l,
    x ∈ n := by
  constructor
  · rintro ⟨c, hc, hid, n, hn, hx⟩
    exact ⟨n, link_of_client hc hl hid ▸ hn, hx⟩
  · rintro ⟨n, hn, hx⟩
    exact ⟨_, client_of_listed hl htype hhosts (List.ne_nil_of_mem hn), rfl, n, hn, hx⟩

/-! What the config covers. -/

theorem exported_clientInput (w : HubWorld) (s : WgStatus) (l : StatusLink) (privateKey : String) :
    ((clientInput w s l privateKey).links.filter
      (·.id ≠ (clientInput w s l privateKey).excludeLinkId)).flatMap LinkRecord.exportedNetworks =
      (s.others l).flatMap fun o => o.exportedNetworks := by
  rw [clientInput, WgStatus.others]
  dsimp only
  rw [List.filter_map, List.flatMap_map, List.filter_filter]
  exact congrArg _ (List.filter_congr fun o _ => (Bool.decide_and _ _).symm)

theorem clientAllowedIPs_eq (hfull : l.fullTunnel = false) :
    clientAllowedIPs (linkWorld w s l) (clientInput w s l privateKey) = baseNets s l := by
  rw [clientAllowedIPs, exported_clientInput, if_neg (by simp [clientInput, hfull]), orIfEmpty,
    baseNets]
  change (if l.importedNetworks.isEmpty = true then _ else l.importedNetworks) = _
  cases himported : l.importedNetworks with
  | nil => rfl
  | cons net nets => rfl

theorem covers_iff
    (hwritten : ∀ line ∈ clientConfigLines (linkWorld w s l) (clientInput w s l privateKey),
      '\n' ∉ line.toList)
    (hcomma : ∀ net ∈ clientAllowedIPs (linkWorld w s l) (clientInput w s l privateKey),
      ',' ∉ net.toList) :
    Covers (clientContent w s l privateKey) x ↔
      ∃ net ∈ readNets (clientAllowedIPs (linkWorld w s l) (clientInput w s l privateKey)), ∃ c,
      canonicalCidr net = some c ∧ x ∈ c := by
  constructor
  · rintro ⟨line, hline, hkey, part, hpart, c, hc, hx⟩
    rw [eq_allowedLine hwritten hline hkey] at hpart
    obtain ⟨net, hnet, hc'⟩ := (part_iff_net hcomma).mp ⟨part, hpart, hc⟩
    exact ⟨net, hnet, c, hc', hx⟩
  · rintro ⟨net, hnet, c, hc, hx⟩
    obtain ⟨part, hpart, hc'⟩ := (part_iff_net hcomma).mpr ⟨net, hnet, hc⟩
    exact ⟨_, allowedLine_mem hwritten _, quickKey_allowedLine _ _, part, hpart, c, hc', hx⟩

/-! What is read of the list. -/

theorem uncommented_subset {t : String} {ts : List String} (h : t ∈ uncommented ts) : t ∈ ts := by
  induction ts with
  | nil => cases h
  | cons u ts ih =>
    rcases List.mem_cons.mp h with rfl | h
    · exact List.mem_cons_self
    · split at h
      · cases h
      · exact List.mem_cons_of_mem _ (ih h)

/-- A text without a comment hides nothing, so it may be left out. -/
theorem mem_uncommented_filter {t u : String} {ts : List String} (hu : '#' ∉ u.toList) :
    t = u ∨ t ∈ uncommented (ts.filter fun v => !v == u) ↔ t = u ∨ t ∈ uncommented ts := by
  induction ts with
  | nil => rfl
  | cons v ts ih =>
    by_cases hv : v = u
    · subst hv
      rw [List.filter_cons_of_neg (by simp), uncommented, if_neg hu, List.mem_cons, ih,
        or_self_left]
    · rw [List.filter_cons_of_pos (by simpa using hv), uncommented, uncommented]
      by_cases hhash : '#' ∈ v.toList
      · rw [if_pos hhash, if_pos hhash]
      · rw [if_neg hhash, if_neg hhash, List.mem_cons, List.mem_cons, or_left_comm, ih,
          or_left_comm]

theorem mem_uncommented_eraseDups {t : String} (ts : List String) :
    t ∈ uncommented ts.eraseDups ↔ t ∈ uncommented ts := by
  induction hlen : ts.length using Nat.strong_induction_on generalizing ts with
  | _ n ih =>
    cases ts with
    | nil => rfl
    | cons u ts =>
      have hshort : (ts.filter fun v => !v == u).length < n := by
        have hle := List.length_filter_le (fun v => !v == u) ts
        rw [List.length_cons] at hlen
        omega
      rw [List.eraseDups_cons, uncommented, uncommented]
      by_cases hhash : '#' ∈ u.toList
      · rw [if_pos hhash, if_pos hhash]
      · rw [if_neg hhash, if_neg hhash, List.mem_cons, List.mem_cons, ih _ hshort _ rfl,
          mem_uncommented_filter hhash]

theorem untilHash_eq (ts : List String) :
    (untilHash (ts.map String.toList)).map String.ofList = (uncommented ts).map beforeHash := by
  induction ts with
  | nil => rfl
  | cons t ts ih =>
    rw [List.map_cons, untilHash, uncommented]
    by_cases hhash : '#' ∈ t.toList
    · rw [if_pos hhash, if_pos hhash]
      rfl
    · rw [if_neg hhash, if_neg hhash, List.map_cons, List.map_cons, ih, beforeHash,
        stripped_eq_self hhash]

theorem uncommented_baseNets {net : String} :
    net ∈ uncommented (baseNets s l) ↔ net ∈ uncommented (given s l) := by
  rw [baseNets, given]
  split
  · rfl
  · exact mem_uncommented_eraseDups _

theorem given_of_base {net : String} (h : net ∈ baseNets s l) : net ∈ given s l := by
  rw [baseNets] at h
  rw [given]
  split at h
  · next himported => rwa [if_pos himported]
  · next himported =>
    rw [if_neg himported]
    exact List.mem_eraseDups.mp h

theorem baseNets_eq_nil : baseNets s l = [] ↔ given s l = [] := by
  rw [baseNets, given]
  split
  · rfl
  · rw [List.eq_nil_iff_forall_not_mem, List.eq_nil_iff_forall_not_mem]
    simp only [List.mem_eraseDups]

/-- The networks of the file are those of the texts up to the first comment, or the default route.
-/
theorem mem_readNets_iff (hne : ∀ net ∈ given s l, net ≠ "") {net : String} :
    net ∈ readNets (baseNets s l) ↔
    (given s l = [] ∧ net = "0.0.0.0/0") ∨ ∃ t ∈ uncommented (given s l), net = beforeHash t := by
  by_cases hnil : given s l = []
  · rw [baseNets_eq_nil.mpr hnil, hnil]
    simp [readNets, uncommented]
  · have htext := intercalate_ne_empty (fun h => hnil (baseNets_eq_nil.mp h)) fun net hnet =>
      hne net (given_of_base hnet)
    rw [readNets, if_neg htext, untilHash_eq, List.mem_map]
    simp only [hnil, false_and, false_or]
    constructor
    · rintro ⟨t, ht, rfl⟩
      exact ⟨t, uncommented_baseNets.mp ht, rfl⟩
    · rintro ⟨t, ht, rfl⟩
      exact ⟨t, uncommented_baseNets.mpr ht, rfl⟩

/-! What a gap is reported for. -/

theorem gapNet_of_mem (hown : x ∈ own) (hn : x ∈ n) :
    ∃ dst, gapNet own n = some dst ∧ own.Contains dst := by
  rw [gapNet]
  by_cases hin : own.Contains n
  · exact ⟨n, if_pos hin, hin⟩
  · rw [if_neg hin]
    rcases PrefixBlock.overlaps_of_mem hown hn with h | h
    · exact absurd h hin
    · exact ⟨own, if_pos h, PrefixBlock.contains_refl own⟩

/-- A rule that does not overlap the network does not meet a part of it. -/
theorem not_ruleMeets (h : Unreleased rules host own) (hdst : own.Contains dst) :
    rules.any (ruleMeets host dst) = false := by
  rw [List.any_eq_false]
  intro r hr hmeets
  rw [ruleMeets, Bool.and_eq_true, Bool.and_eq_true, List.any_eq_true] at hmeets
  obtain ⟨⟨henabled, hsrc⟩, hdests⟩ := hmeets
  obtain ⟨hne, hall⟩ := h r hr henabled hsrc
  rw [Bool.or_eq_true, List.isEmpty_iff, List.any_eq_true] at hdests
  rcases hdests with hempty | ⟨d, hd, hover⟩
  · exact hne hempty
  · rw [Bool.or_eq_true, cidrContains_iff, cidrContains_iff] at hover
    rcases hover with ⟨o, i, ho, hi, hcontains⟩ | ⟨o, i, ho, hi, hcontains⟩
    · rw [canonicalCidr_render] at hi
      cases hi
      exact hall d hd o ho
        (PrefixBlock.overlaps_of_mem (hcontains.mem dst.base_mem) (hdst.mem dst.base_mem))
    · rw [canonicalCidr_render] at ho
      cases ho
      exact hall d hd i hi
        (PrefixBlock.overlaps_of_mem i.base_mem (hdst.mem (hcontains.mem i.base_mem)))

theorem gap_of_listed (hl : l ∈ s.links) (htype : l.type = "client") (hhost : host ∈ l.hosts)
    (hown : own ∈ ownNets)
    (hx : x ∈ own) (hn : n ∈ listedNets s l) (hxn : x ∈ n) (hfree : Unreleased rules host own) :
    ∃ g ∈ clientIngressGaps (vpnClientsFromStatus s) ownNets rules,
      (∃ dst, own.Contains dst ∧ g.host = dst ∧ g.id = l.id ++ "|" ++ Cidr.render dst) ∧
      g.suggestion.sources = [host] := by
  obtain ⟨dst, hdst, hcontains⟩ := gapNet_of_mem hx hxn
  have hclient := client_of_listed hl htype (List.ne_nil_of_mem hhost) (List.ne_nil_of_mem hn)
  refine ⟨clientGap ⟨l.id, clientLabel l, l.hosts, listedNets s l⟩ dst host, ?_,
    ⟨dst, hcontains, rfl, rfl⟩, rfl⟩
  refine List.mem_flatMap.mpr
    ⟨_, hclient, List.mem_flatMap.mpr ⟨n, hn, List.mem_flatMap.mpr ⟨own, hown, ?_⟩⟩⟩
  refine List.mem_flatMap.mpr
    ⟨dst, by rw [hdst]; exact List.mem_singleton_self _,
      List.mem_map_of_mem (List.mem_filter.mpr ⟨hhost, ?_⟩)⟩
  rw [not_ruleMeets hfree hcontains]
  rfl

/-- What the check lists are the networks within which the condition asks for the addresses. -/
theorem exists_listed_iff (hfull : l.fullTunnel = false) : (∃ n ∈ listedNets s l, x ∈ n) ↔
    ∃ net ∈ given s l ++ besides s l, ∃ c, canonicalCidr net = some c ∧ c.len ≠ 32 ∧ x ∈ c := by
  have hnets : ∀ t, t ∈ clientNets s l ↔ t ∈ given s l ++ besides s l := by
    intro t
    rw [clientNets, if_neg (by simp [hfull]), given, besides]
    split
    · rw [List.append_nil]
    · simp only [List.mem_append, List.mem_flatMap]
      constructor
      · rintro (h | ⟨o, ho, h | h⟩)
        · exact .inl (.inl h)
        · exact .inl (.inr ⟨o, ho, h⟩)
        · exact .inr ⟨o, ho, h⟩
      · rintro ((h | ⟨o, ho, h⟩) | ⟨o, ho, h⟩)
        · exact .inl h
        · exact .inr ⟨o, ho, .inl h⟩
        · exact .inr ⟨o, ho, .inr h⟩
  constructor
  · rintro ⟨n, hn, hx⟩
    obtain ⟨hlen, t, ht, hc⟩ := mem_listedNets.mp hn
    exact ⟨t, (hnets t).mp ht, n, hc, hlen, hx⟩
  · rintro ⟨t, ht, c, hc, hlen, hx⟩
    exact ⟨c, mem_listedNets.mpr ⟨hlen, t, (hnets t).mpr ht, hc⟩, hx⟩

theorem defaultRoute : ∃ c, canonicalCidr "0.0.0.0/0" = some c ∧ c.len ≠ 32 ∧ ∀ x, x ∈ c := by
  have hlen : (canonicalCidr "0.0.0.0/0").map (fun c => (c.base, c.len)) = some (0#32, 0) := by
    decide
  obtain ⟨c, hc, hpair⟩ := Option.map_eq_some_iff.mp hlen
  obtain ⟨hbase, hzero⟩ := Prod.mk.inj hpair
  refine ⟨c, hc, by rw [hzero]; decide, fun x => ?_⟩
  have hmask : PrefixBlock.netmask 32 0 = 0#32 := by decide
  rw [PrefixBlock.mem_iff, hbase, hzero, hmask, BitVec.and_zero]

/-- Everything is listed for a full tunnel. -/
theorem listed_of_fullTunnel (hfull : l.fullTunnel = true) (x : Ip) :
    ∃ n ∈ listedNets s l, x ∈ n := by
  obtain ⟨c, hc, hlen, hall⟩ := defaultRoute
  refine ⟨c, mem_listedNets.mpr ⟨hlen, "0.0.0.0/0", ?_, hc⟩, hall x⟩
  rw [clientNets, if_pos hfull]
  exact List.mem_singleton_self _

/-- What a client reaches that is not full tunnel. -/
theorem covers_iff_given
    (hwritten : ∀ line ∈ clientConfigLines (linkWorld w s l) (clientInput w s l privateKey),
      '\n' ∉ line.toList)
    (hnets : ∀ net ∈ given s l, net ≠ "" ∧ ',' ∉ net.toList) (hfull : l.fullTunnel = false) :
    Covers (clientContent w s l privateKey) x ↔
      given s l = [] ∨ ∃ t ∈ uncommented (given s l), ∃ c, canonicalCidr (beforeHash t) = some c ∧
      x ∈ c := by
  have hbase : clientAllowedIPs (linkWorld w s l) (clientInput w s l privateKey) = baseNets s l :=
    clientAllowedIPs_eq hfull
  have hcomma : ∀ net ∈ baseNets s l, ',' ∉ net.toList :=
    fun net hnet => (hnets net (given_of_base hnet)).2
  rw [covers_iff hwritten (hbase ▸ hcomma), hbase]
  simp only [mem_readNets_iff fun net hnet => (hnets net hnet).1]
  obtain ⟨zero, hzero, -, hall⟩ := defaultRoute
  constructor
  · rintro ⟨net, ⟨hnil, rfl⟩ | ⟨t, ht, rfl⟩, c, hc, hx⟩
    · exact .inl hnil
    · exact .inr ⟨t, ht, c, hc, hx⟩
  · rintro (hnil | ⟨t, ht, c, hc, hx⟩)
    · exact ⟨_, .inl ⟨hnil, rfl⟩, zero, hzero, hall x⟩
    · exact ⟨_, .inr ⟨t, ht, rfl⟩, c, hc, hx⟩

theorem knowsReach_of_listed (hl : l ∈ s.links) (htype : l.type = "client") (hhosts : l.hosts ≠ [])
    {content : String}
    (hlisted : ∀ x, Covers content x → (∀ h ∈ l.hosts, x ∉ h) → ∃ n ∈ listedNets s l, x ∈ n) :
    KnowsReach s l content := by
  constructor
  · intro x hcovers hhost
    exact (listed_iff hl htype hhosts).mpr (hlisted x hcovers hhost)
  · rintro ownNets rules own hown host hhost ⟨x, hx, hcovers, hnot⟩ hfree
    obtain ⟨n, hn, hxn⟩ := hlisted x hcovers hnot
    exact gap_of_listed hl htype hhost hown hx hn hxn hfree

theorem knowsReach_iff (hl : l ∈ s.links) (htype : l.type = "client") (hhosts : l.hosts ≠ [])
    (hwritten : ∀ line ∈ clientConfigLines (linkWorld w s l) (clientInput w s l privateKey),
      '\n' ∉ line.toList)
    (hnets : ∀ net ∈ given s l, net ≠ "" ∧ ',' ∉ net.toList) :
    KnowsReach s l (clientContent w s l privateKey) ↔ l.fullTunnel = true ∨ OnlyNetworks s l := by
  cases hfull : l.fullTunnel with
  | true =>
    refine iff_of_true (knowsReach_of_listed hl htype hhosts fun x _ _ =>
      listed_of_fullTunnel hfull x) (.inl rfl)
  | false =>
    have hcovers : ∀ x, Covers (clientContent w s l privateKey) x ↔ _ :=
      fun x => covers_iff_given hwritten hnets hfull
    constructor
    · intro hknows
      have hwithin : ∀ x, Covers (clientContent w s l privateKey) x → Within s l x := by
        intro x hx
        by_cases hhost : ∃ h ∈ l.hosts, x ∈ h
        · exact .inl hhost
        · have hlisted := hknows.listed x hx fun h hh hxh => hhost ⟨h, hh, hxh⟩
          exact .inr ((exists_listed_iff hfull).mp ((listed_iff hl htype hhosts).mp hlisted))
      exact .inr ⟨fun hnil x => hwithin x ((hcovers x).mpr (.inl hnil)),
        fun net hnet c hc _ x hx => hwithin x ((hcovers x).mpr (.inr ⟨net, hnet, c, hc, hx⟩))⟩
    · intro hcond
      obtain ⟨hempty, hplain⟩ := hcond.resolve_left Bool.false_ne_true
      refine knowsReach_of_listed hl htype hhosts fun x hx hhost => ?_
      have hwithin : Within s l x := by
        rcases (hcovers x).mp hx with hnil | ⟨t, ht, c, hc, hxc⟩
        · exact hempty hnil x
        · by_cases hodd : '#' ∈ t.toList ∨ c.len = 32
          · exact hplain t ht c hc hodd x hxc
          · obtain ⟨hhash, hlen⟩ := not_or.mp hodd
            rw [beforeHash, stripped_eq_self hhash, String.ofList_toList] at hc
            exact .inr ⟨t, List.mem_append_left _ (uncommented_subset ht), c, hc, hlen, hxc⟩
      rcases hwithin with ⟨h, hh, hxh⟩ | hnet
      · exact absurd hxh (hhost h hh)
      · exact (exists_listed_iff hfull).mpr hnet

/-! A phone and a site. -/

def sampleInterfaces : Table String (List String) :=
  (Table.empty : Table String (List String)).set "wg0" ["10.10.0.1/24"]

def sampleLink (id type name host : String) (exported imported : List String) : StatusLink where
  id := id
  type := type
  name := name
  peerPublicKey := "key="
  allowedIps := [host]
  tunnelAddresses := [host]
  exportedNetworks := exported
  importedNetworks := imported
  interfaceName := "wg0"
  dns := []
  fullTunnel := false
  platform := none

def site : StatusLink :=
  sampleLink "wg0:site" "site-to-site" "office" "10.10.0.9/32" [] ["192.168.60.0/24"]

/-- A phone that reaches the site and one of its hosts. -/
def phone : StatusLink :=
  sampleLink "wg0:phone" "client" "phone" "10.10.0.2/32" [] ["192.168.60.0/24", "192.168.60.5/32"]

/-- A phone that only reaches one host of the site. -/
def hostPhone : StatusLink :=
  sampleLink "wg0:phone" "client" "phone" "10.10.0.2/32" [] ["192.168.60.5/32"]

def phoneStatus : WgStatus := ⟨sampleInterfaces, [site, phone], by decide, by decide⟩

def hostPhoneStatus : WgStatus := ⟨sampleInterfaces, [site, hostPhone], by decide, by decide⟩

theorem knowsReach_phone :
    KnowsReach phoneStatus phone (clientContent sampleHub phoneStatus phone "new") := by
  refine (knowsReach_iff (.tail _ (.head _)) rfl (by decide +kernel) (by decide +kernel)
    (by decide +kernel)).mpr (.inr ⟨?_, ?_⟩)
  · intro hnil
    exact absurd hnil (by decide +kernel)
  · have hall : ∀ net ∈ uncommented (given phoneStatus phone), ∀ c ∈ canonicalCidr (beforeHash net),
      '#' ∈ net.toList ∨ c.len = 32 →
        ∃ n ∈ canonicalCidr "192.168.60.0/24", n.len ≠ 32 ∧ n.Contains c := by decide +kernel
    intro net hnet c hc hodd x hx
    obtain ⟨n, hn, hlen, hcontains⟩ := hall net hnet c hc hodd
    exact .inr ⟨_, by decide +kernel, n, hn, hlen, hcontains.mem hx⟩

/-- The host is in the config, but the phone is not in the list. -/
theorem host_not_listed :
    ¬ KnowsReach hostPhoneStatus hostPhone
      (clientContent sampleHub hostPhoneStatus hostPhone "new") := by
  intro h
  have hnone : (vpnClientsFromStatus hostPhoneStatus).isEmpty = true := by decide +kernel
  have hhost : ∃ c ∈ canonicalCidr "192.168.60.5/32", 0xc0a83c05#32 ∈ c ∧ ∀ h ∈ hostPhone.hosts,
      0xc0a83c05#32 ∉ h := by decide +kernel
  obtain ⟨c, hc, hx, hnot⟩ := hhost
  have hcovers : Covers (clientContent sampleHub hostPhoneStatus hostPhone "new") 0xc0a83c05#32 :=
    (covers_iff (by decide +kernel) (by decide +kernel)).mpr ⟨"192.168.60.5/32",
      by decide +kernel, c, hc, hx⟩
  obtain ⟨client, hclient, -⟩ := h.listed _ hcovers hnot
  rw [List.isEmpty_iff.mp hnone] at hclient
  cases hclient

end FloppyGuard.ClientReach
