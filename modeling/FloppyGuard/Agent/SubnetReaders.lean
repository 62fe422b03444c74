import FloppyGuard.Agent.ConfigText
import FloppyGuard.DirectLink.Mesh
import FloppyGuard.WireGuard.AddressLines
import FloppyGuard.WireGuard.HubConf

/-! The three readers of the tunnel subnet (`deriveTunnelSubnet`, `_tunnelSubnetFromConfLines`,
`agentTunnelSubnets`) on one configuration. -/
namespace FloppyGuard.SubnetReaders

open Text WireGuard Ingress

/-- The entries of the first `Address` line to the last. -/
def entriesOf (c : Config) : List Entry := c.addressLines.flatMap AddressLine.entries

/-- The first IPv4 CIDR with a prefix from 1 to 31. -/
def firstNet (c : Config) : Option (Ip × ℕ) :=
  (entriesOf c).findSome? fun e => e.cidr.filter fun n => 1 ≤ n.2 ∧ n.2 ≤ 31

/-- The three readers give this network, and it contains the address. -/
structure Agree (c : Config) (ip : Ip) (net : Cidr) : Prop where
  derived : AgentSync.deriveTunnelSubnet c.texts = net
  fromLines : tunnelSubnetFromConfLines c.texts = net.render
  agents : ∀ a : DirectLink.Agent, a.configText = some (String.ofList c.text) →
    DirectLink.agentTunnelSubnets [a] = [net.render]
  own : ip ∈ net

/-- A network without subnet information stands for its `/24`. -/
def enclosing (n : Ip × ℕ) : Option Cidr :=
  let p := if n.2 = 32 then 24 else n.2
  if h : p ≤ 32 then some (.around n.1 p h) else none

/-- The CIDR the first `Address` line starts with that starts with one. -/
def leadingNet (c : Config) : Option (Ip × ℕ) := c.addressLines.findSome? fun l => l.first.cidr

/-- The first address with a prefix in a line, whatever it is a part of. -/
def lineNet (l : AddressLine) : Option Cidr :=
  ((l.entries.findSome? Entry.dotted).or (findNetwork l.comment)).bind fun n =>
    canonicalizeIpv4Network (String.ofList (n.1 ++ '/' :: n.2))

/-- The network is the one the lines start with, and the first that stands in the first line. -/
structure Leads (c : Config) (net : Cidr) : Prop where
  leading : (leadingNet c).bind enclosing = some net
  inFirst : ((c.addressLines.head?.bind lineNet).getD AgentSync.defaultSubnet) = net

variable {c : Config} {e : Entry} {u : List Char} {ip : Ip} {p : ℕ} {net : Cidr}

/-! One entry. -/

theorem len_le (h : e.cidr = some (ip, p)) :
    ipToInt e.addr = some ip ∧ e.len = some p ∧ p ≤ 32 := by
  obtain ⟨ip', hip, hlen⟩ := Option.bind_eq_some_iff.mp h
  obtain ⟨p', hp, heq⟩ := Option.map_eq_some_iff.mp hlen
  cases heq
  refine ⟨hip, hp, ?_⟩
  rcases e.valid with ⟨-, hle⟩ | h6
  · exact hle p hp
  · rcases mem_of_ipToInt hip h6.1 with hc | hc <;> exact absurd hc (by decide)

/-- An entry that is no IPv4 CIDR has a colon or no prefix. -/
theorem of_cidr_none (h : e.cidr = none) : e.len = none ∨ ':' ∈ e.addr := by
  rcases e.valid with ⟨h4, -⟩ | h6
  · obtain ⟨ip, hip⟩ := Option.isSome_iff_exists.mp h4
    rw [Entry.cidr, hip] at h
    left
    simpa using h
  · exact .inr h6.1

/-- What the pattern of `deriveTunnelSubnet` reads behind `Address =`. -/
def leadingMask (value : List Char) : Option (List Char × List Char) :=
  match value.dropWhile AgentSync.isAddressChar with
  | '/' :: mask =>
    if value.takeWhile AgentSync.isAddressChar ≠ [] ∧ mask.takeWhile Char.isDigit ≠ [] then
      some (value.takeWhile AgentSync.isAddressChar, mask.takeWhile Char.isDigit)
    else none
  | _ => none

theorem addressAt_eq (s : List Char) :
    AgentSync.addressAt s = (addressValue s).bind leadingMask := by
  unfold AgentSync.addressAt addressValue
  dsimp only
  split
  · cases ((s.dropWhile isSpace).drop 7).dropWhile isSpace with
    | nil => rfl
    | cons d rest =>
      by_cases hd : d = '='
      · subst hd
        rfl
      · simp [hd]
  · rfl

theorem leadingMask_none {value : List Char}
    (h : ∀ c ∈ (value.dropWhile AgentSync.isAddressChar).head?, c ≠ '/') :
    leadingMask value = none := by
  unfold leadingMask
  split
  · next mask heq => exact absurd rfl (h '/' (by rw [heq]; rfl))
  · rfl

theorem leadingMask_entry (e : Entry) (hu : Stops u) :
    leadingMask (e.addr ++ (e.suffix ++ u)) = e.cidr.map fun n =>
      (e.addr, Nat.toDigits 10 n.2) := by
  cases hcidr : e.cidr with
  | some n =>
    obtain ⟨hip, hlen, -⟩ := len_le hcidr
    have hall : ∀ c ∈ e.addr, AgentSync.isAddressChar c = true := by
      intro c hc
      rw [AgentSync.isAddressChar, Bool.or_eq_true, decide_eq_true_eq]
      exact (mem_of_ipToInt hip hc).symm
    have hsuffix : e.suffix ++ u = '/' :: (Nat.toDigits 10 n.2 ++ u) := by
      rw [Entry.suffix, hlen]; rfl
    have htake : ('/' :: (Nat.toDigits 10 n.2 ++ u)).takeWhile AgentSync.isAddressChar = [] :=
      List.takeWhile_cons_of_neg (by decide)
    have hdrop : ('/' :: (Nat.toDigits 10 n.2 ++ u)).dropWhile AgentSync.isAddressChar = '/' ::
        (Nat.toDigits 10 n.2 ++ u) :=
      List.dropWhile_cons_of_neg (by decide)
    rw [leadingMask, hsuffix, List.dropWhile_append_of_pos hall, List.takeWhile_append_of_pos hall,
      htake, hdrop, List.append_nil]
    change (if e.addr ≠ [] ∧ (Nat.toDigits 10 n.2 ++ u).takeWhile Char.isDigit ≠ [] then
      some (e.addr, (Nat.toDigits 10 n.2 ++ u).takeWhile Char.isDigit) else none) = _
    rw [takeWhile_toDigits fun c hc => (not_digit_of_stop (hu c hc)).1,
      if_pos ⟨e.addr_ne, Nat.toDigits_ne_nil⟩]
    rfl
  | none =>
    refine leadingMask_none fun c hc => ?_
    rw [List.dropWhile_append] at hc
    split at hc
    · next hempty =>
      -- all of the address is of digits and dots, so it has no prefix
      have hall : ∀ d ∈ e.addr, AgentSync.isAddressChar d = true := by simpa using hempty
      have hlen : e.len = none := (of_cidr_none hcidr).resolve_right fun hcolon =>
        absurd (hall ':' hcolon) (by decide)
      have hsuffix : e.suffix ++ u = u := by rw [Entry.suffix, hlen]; rfl
      rw [hsuffix] at hc
      cases u with
      | nil => cases hc
      | cons d u =>
        obtain ⟨hdigit, hdot, hslash⟩ := not_digit_of_stop (hu d rfl)
        rw [List.dropWhile_cons_of_neg (by simp [AgentSync.isAddressChar, hdigit, hdot])] at hc
        obtain rfl : d = c := Option.some.inj hc
        exact hslash
    · next hrest =>
      cases hd : e.addr.dropWhile AgentSync.isAddressChar with
      | nil => simp [hd] at hrest
      | cons d r =>
        rw [hd] at hc
        obtain rfl : d = c := Option.some.inj hc
        have hmem : d ∈ e.addr := (List.dropWhile_sublist _).subset (hd ▸ List.mem_cons_self)
        rintro rfl
        exact e.slash_notMem hmem

theorem addressLine_entry (e : Entry) (hu : Stops u) :
    ((leadingCidr (e.addr ++ (e.suffix ++ u))).bind fun n => (number 2 n.2).map fun p =>
      (String.ofList n.1, p)) =
      e.cidr.map fun n => (String.ofList e.addr, n.2) := by
  rw [Entry.suffix, leadingCidr_suffix _ e.slash_notMem hu]
  cases hcidr : e.cidr with
  | some n =>
    obtain ⟨hip, hlen, hle⟩ := len_le hcidr
    have hshort : (Nat.toDigits 10 n.2).take 2 = Nat.toDigits 10 n.2 :=
      List.take_of_length_le ((Nat.length_toDigits_le_iff (by omega) (by omega)).mpr (by omega))
    rw [hlen, Option.bind_some, if_pos (isDotted_of_ipToInt (by rw [hip]; rfl)), Option.bind_some,
      hshort,
      number_toDigits (by omega) (by omega)]
    rfl
  | none =>
    rcases of_cidr_none hcidr with hlen | hcolon
    · rw [hlen]
      rfl
    · rw [isDotted_eq_false hcolon (by decide) (by decide)]
      cases e.len <;> rfl

/-! The readers. -/

theorem joined_texts (c : Config) : AgentSync.joined c.texts = c.text := by
  rw [AgentSync.joined, Config.text, Config.texts, List.map_map]
  refine congrArg _ (List.map_congr_left fun l _ => ?_)
  exact String.toList_ofList

/-- The address and the prefix the lines start with, as texts. -/
def leadingText (c : Config) : Option (List Char × ℕ) :=
  c.addressLines.findSome? fun l => l.first.cidr.map fun n => (l.first.addr, n.2)

theorem leadingNet_text (c : Config) : leadingText c = none ∧ leadingNet c = none ∨
    ∃ addr ip p, leadingText c = some (addr, p) ∧ leadingNet c = some (ip, p) ∧
    ipToInt addr = some ip ∧ p ≤ 32 := by
  unfold leadingText leadingNet
  induction c.addressLines with
  | nil => exact .inl ⟨rfl, rfl⟩
  | cons l ls ih =>
    rw [List.findSome?_cons, List.findSome?_cons]
    cases hcidr : l.first.cidr with
    | none => exact ih
    | some n =>
      obtain ⟨hip, -, hle⟩ := len_le hcidr
      exact .inr ⟨l.first.addr, n.1, n.2, rfl, rfl, hip, hle⟩

theorem deriveTunnelSubnet_texts (c : Config) :
    AgentSync.deriveTunnelSubnet c.texts =
      ((leadingText c).bind fun n => AgentSync.subnetOf n.1 (Nat.toDigits 10 n.2)).getD
        AgentSync.defaultSubnet := by
  have hread := findSome?_config (f := leadingMask) (fun e u hu => leadingMask_entry e hu) c
  have hat : AgentSync.addressAt = fun s => (addressValue s).bind leadingMask := funext addressAt_eq
  have htexts : (c.addressLines.findSome? fun l => l.first.cidr.map fun n =>
    (l.first.addr, Nat.toDigits 10 n.2)) =
      (leadingText c).map fun n => (n.1, Nat.toDigits 10 n.2) := by
    rw [leadingText, List.map_findSome?]
    refine congrArg (fun f => c.addressLines.findSome? f) (funext fun l => ?_)
    rw [Function.comp_apply, Option.map_map]
    rfl
  rw [AgentSync.deriveTunnelSubnet, joined_texts, hat, hread, htexts]
  cases leadingText c <;> rfl

theorem agentTunnelSubnet_texts (c : Config) :
    DirectLink.agentTunnelSubnet (some (String.ofList c.text)) =
    (leadingText c).bind fun n => canonicalizeIpv4Network
    (String.ofList n.1 ++ "/" ++ decimal (if n.2 = 32 then 24 else n.2)) := by
  have hread := findSome?_config
    (f := fun v => (leadingCidr v).bind fun n => (number 2 n.2).map fun p => (String.ofList n.1, p))
    (g := fun e => e.cidr.map fun n => (String.ofList e.addr, n.2))
      (fun e u hu => addressLine_entry e hu) c
  have hline : DirectLink.addressLine = fun s => (addressValue s).bind fun v =>
      (leadingCidr v).bind fun n => (number 2 n.2).map fun p => (String.ofList n.1, p) := by
    funext s
    exact Option.bind_assoc _ _ _
  have htexts : (c.addressLines.findSome? fun l => l.first.cidr.map fun n =>
    (String.ofList l.first.addr, n.2)) =
      (leadingText c).map fun n => (String.ofList n.1, n.2) := by
    rw [leadingText, List.map_findSome?]
    refine congrArg (fun f => c.addressLines.findSome? f) (funext fun l => ?_)
    rw [Function.comp_apply, Option.map_map]
    rfl
  rw [DirectLink.agentTunnelSubnet, Option.getD_some, String.toList_ofList, hline, hread, htexts]
  cases leadingText c <;> rfl

/-- The last reader looks at the first `Address` line only. -/
theorem tunnelSubnetFromConfLines_texts (c : Config) :
    tunnelSubnetFromConfLines c.texts =
      ((c.addressLines.head?.bind lineNet).getD AgentSync.defaultSubnet).render := by
  have hdefault : AgentSync.defaultSubnet.render = "10.10.0.0/24" := by decide
  rw [tunnelSubnetFromConfLines, find?_config]
  cases c.addressLines.head? with
  | none => exact hdefault.symm
  | some l =>
    have hfound : (String.ofList l.text).toList.tails.findSome? leadingCidr =
        (l.entries.findSome? Entry.dotted).or (findNetwork l.comment) := by
      rw [String.toList_ofList]
      exact findNetwork_line l
    rw [Option.map_some, Option.bind_some, Option.bind_some, hfound, lineNet]
    cases (l.entries.findSome? Entry.dotted).or (findNetwork l.comment) with
    | none => exact hdefault.symm
    | some n =>
      dsimp only [Option.bind_some]
      cases canonicalizeIpv4Network (String.ofList (n.1 ++ '/' :: n.2)) with
      | none => exact hdefault.symm
      | some net => rfl

/-! Where they agree. -/

theorem canonicalizeIpv4Network_text {addr : List Char} (h : ipToInt addr = some ip) (hp : p ≤ 32) :
    canonicalizeIpv4Network (String.ofList (addr ++ '/' :: Nat.toDigits 10 p)) =
      some (.around ip p hp) := by
  rw [canonicalizeIpv4Network, if_pos (by simp), canonicalCidr_text h hp]

/-- The reader of the agents gives the network the lines start with. -/
theorem agentTunnelSubnet_leading (c : Config) :
    DirectLink.agentTunnelSubnet (some (String.ofList c.text)) = (leadingNet c).bind enclosing := by
  rw [agentTunnelSubnet_texts]
  rcases leadingNet_text c with ⟨htext, hnet⟩ | ⟨addr, ip, p, htext, hnet, hip, hp⟩
  · rw [htext, hnet]
    rfl
  · have hle : (if p = 32 then 24 else p) ≤ 32 := by split <;> omega
    have hstring : String.ofList addr ++ "/" ++ decimal (if p = 32 then 24 else p) =
        String.ofList (addr ++ '/' :: Nat.toDigits 10 (if p = 32 then 24 else p)) := by
      have hslash : "/" = String.ofList ['/'] := by decide
      rw [decimal, hslash, ← String.ofList_append, ← String.ofList_append, List.append_assoc]
      rfl
    rw [htext, hnet, Option.bind_some, Option.bind_some, hstring,
      canonicalizeIpv4Network_text hip hle, enclosing, dif_pos hle]

/-- Where that network has a prefix other than 0, `deriveTunnelSubnet` gives it, too. -/
theorem deriveTunnelSubnet_leading (hnet : (leadingNet c).bind enclosing = some net)
    (hlen : 1 ≤ net.len) :
    AgentSync.deriveTunnelSubnet c.texts = net := by
  rw [deriveTunnelSubnet_texts]
  rcases leadingNet_text c with ⟨-, hnone⟩ | ⟨addr, ip, p, htext, hsome, hip, hp⟩
  · rw [hnone] at hnet
    cases hnet
  · rw [hsome, Option.bind_some] at hnet
    have hle : (if p = 32 then 24 else p) ≤ 32 := by split <;> omega
    rw [enclosing, dif_pos hle] at hnet
    cases hnet
    have hpos : 1 ≤ p := by
      by_contra hzero
      obtain rfl : p = 0 := by omega
      exact absurd hlen (Nat.not_succ_le_zero 0)
    rw [htext, Option.bind_some, AgentSync.subnetOf, Nat.ofDigitChars_ten_toDigits]
    dsimp only
    rw [if_neg (by omega), canonicalizeIpv4Network_text hip hle]
    rfl

/-- An agent with this configuration. -/
def agentWith (configText : String) : DirectLink.Agent where
  wgLinkName := none
  ingressMode := .open_
  allowedNetworks := none
  allowedSites := none
  id := 1
  name := "site"
  wgInterface := none
  configText := some configText

theorem firstNet_len (h : firstNet c = some (ip, p)) : 1 ≤ p ∧ p ≤ 31 := by
  obtain ⟨e, -, he⟩ := List.exists_of_findSome?_eq_some h
  have hfilter := Option.filter_eq_some_iff.mp he
  simpa using hfilter.2

/-- The readers agree on the first network exactly where the lines start with it and the first line
shows no other. -/
theorem readers_agree_iff (c : Config) (ip : Ip) (p : ℕ) (hp : p ≤ 32)
    (hfirst : firstNet c = some (ip, p)) :
    Agree c ip (.around ip p hp) ↔ Leads c (.around ip p hp) := by
  have hlen := firstNet_len hfirst
  have hsome : ∀ a : DirectLink.Agent, a.configText = some (String.ofList c.text) →
      DirectLink.agentTunnelSubnets [a] =
        (((leadingNet c).bind enclosing).map Cidr.render).toList := by
    intro a ha
    rw [DirectLink.agentTunnelSubnets, List.filterMap_cons, ha, agentTunnelSubnet_leading]
    cases (leadingNet c).bind enclosing <;> rfl
  constructor
  · intro h
    constructor
    · have hagents := (hsome (agentWith _) rfl).symm.trans (h.agents (agentWith _) rfl)
      cases hl : (leadingNet c).bind enclosing with
      | none => rw [hl] at hagents; cases hagents
      | some net =>
        rw [hl] at hagents
        exact congrArg some (render_injective (List.singleton_inj.mp hagents))
    · exact render_injective ((tunnelSubnetFromConfLines_texts c).symm.trans h.fromLines)
  · intro h
    refine ⟨deriveTunnelSubnet_leading h.leading hlen.1, ?_, fun a ha => ?_,
      PrefixBlock.mem_around ip hp⟩
    · rw [tunnelSubnetFromConfLines_texts, h.inFirst]
    · rw [hsome a ha, h.leading]
      rfl

def plainEntry (addr : List Char) (len : ℕ)
    (valid : (ipToInt addr).isSome = true ∧ (∀ p ∈ some len, p ≤ 32) ∨ IsIPv6Text addr) :
    Entry := ⟨[' '], addr, some len, [], by decide, valid⟩

def tunnelEntry : Entry := plainEntry "10.20.0.5".toList 24 (.inl (by decide))

def privateEntry : Entry := plainEntry "fd00::5".toList 64 (.inr ⟨by decide, by decide⟩)

def addressOf (first second : Entry) : AddressLine where
  indent := []
  key := "Address".toList
  gap := [' ']
  first := first
  rest := [second]
  comment := []
  blank := by decide
  isKey := by decide
  marked := nofun

def configOf (first second : Entry) (h : OneLine (addressOf first second).text) : Config where
  lines := [.other "[Interface]".toList (by decide), .address (addressOf first second)]
  ne := List.cons_ne_nil _ _
  oneLine := List.forall_mem_cons.mpr ⟨by decide, List.forall_mem_singleton.mpr h⟩

def v4First : Config := configOf tunnelEntry privateEntry (by decide)

def v6First : Config := configOf privateEntry tunnelEntry (by decide)

theorem v4First_agree : Agree v4First 0x0a140005#32 (.around 0x0a140005#32 24 (by decide)) :=
  (readers_agree_iff v4First 0x0a140005#32 24 (by decide) (by decide)).mpr ⟨by decide, by decide⟩

/-- Two readers pass over a line that starts with an IPv6 address. -/
theorem v6First_differ :
    ¬ ∀ (c : Config) (ip : Ip) (p : ℕ) (hp : p ≤ 32), firstNet c = some (ip, p) →
    Agree c ip (.around ip p hp) := by
  intro hall
  have hagree := hall v6First 0x0a140005#32 24 (by decide) (by decide)
  have hderived : AgentSync.deriveTunnelSubnet v6First.texts = AgentSync.defaultSubnet := by
    decide +kernel
  exact absurd (hagree.derived.symm.trans hderived) (by decide)

end FloppyGuard.SubnetReaders
