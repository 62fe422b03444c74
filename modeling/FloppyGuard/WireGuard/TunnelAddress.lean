import FloppyGuard.WireGuard.Metadata
import Mathlib.Order.Bounds.Basic

/-! The address `createPeer` gives a new peer: the first of the hub's subnet that nobody has. The
hub's own address is compared as it is written, not as the address it means. -/
namespace FloppyGuard.WireGuard

open Text

/-- `intToIp` -/
def ipText (a : Ip) : String := String.ofList (intToIp a)

/-- `addr.replace(/\/\d+$/, "")` -/
def stripPrefix (addr : String) : String :=
  let rev := addr.toList.reverse
  match rev.takeWhile Char.isDigit, rev.dropWhile Char.isDigit with
  | _ :: _, '/' :: rest => String.ofList rest.reverse
  | _, _ => addr

/-- `Number.parseInt` of a text that starts with its digits, as a mask does. -/
def parseInt (s : List Char) : Option ℕ :=
  let digits := s.takeWhile Char.isDigit
  if digits = [] then none else some (Nat.ofDigitChars 10 digits 0)

/-- The address of the hub as it is written, and the address it means. -/
structure HubAddress where
  text : String
  mask : String
  ip : Ip
  len : ℕ
  len_le : len ≤ 32
  parsed : ipToInt text.toList = some ip

/-- `hubIp` and `mask`, from the first address of the interface. -/
def hubParts (addresses : List String) : String × String :=
  let hubAddr := ((addresses.head?.filter (· ≠ "")).getD "10.10.0.1/24").toList.splitOn '/'
  (String.ofList (hubAddr.head?.getD []),
    String.ofList ((hubAddr.tail.head?.filter (· ≠ [])).getD "24".toList))

/-- An octet is one to three digits, as `isValidInterfaceAddress` wants it. -/
def readHub (hubIp mask : String) : Option HubAddress :=
  match hip : ipToInt hubIp.toList, parseInt mask.toList with
  | some ip, some len => if hlen : len ≤ 32 then some ⟨hubIp, mask, ip, len, hlen, hip⟩ else none
  | _, _ => none

def hubAddress? (addresses : List String) : Option HubAddress :=
  readHub (hubParts addresses).1 (hubParts addresses).2

namespace HubAddress

variable (h : HubAddress)

def network : Ip := h.ip &&& prefixMask h.len

def broadcast : Ip := h.network ||| ~~~prefixMask h.len

/-- `nextIP`, by the tunnel addresses of the links. -/
def nextIP (tunnelAddresses : List String) : Option String :=
  let usedIPs := h.text :: tunnelAddresses.map stripPrefix
  let first := h.network.toNat + 1
  ((List.range' first (h.broadcast.toNat - first)).map fun host =>
    ipText (BitVec.ofNat 32 host)).find? (· ∉ usedIPs)

def subnet : Cidr := .around h.ip h.len h.len_le

/-- Inside the subnet, and neither its network address nor its broadcast address. -/
def Host (a : Ip) : Prop := a ∈ h.subnet ∧ a ≠ h.subnet.base ∧ a ≠ h.subnet.last

end HubAddress

/-- A tunnel address as the links list it. -/
def Used (tunnelAddresses : List String) (a : Ip) : Prop :=
  ipText a ∈ tunnelAddresses.map stripPrefix

namespace HubAddress

/-- The addresses a new peer may have. -/
def free (h : HubAddress) (tunnelAddresses : List String) : Set Ip :=
  {a | h.Host a ∧ a ≠ h.ip ∧ ¬ Used tunnelAddresses a}

/-- The addresses whose text is not in the way. -/
def candidates (h : HubAddress) (tunnelAddresses : List String) : Set Ip :=
  {a | h.Host a ∧ ipText a ≠ h.text ∧ ¬ Used tunnelAddresses a}

/-- The search gives the lowest free address, and gives up only where there is none. -/
structure Exact (h : HubAddress) (tunnelAddresses : List String) : Prop where
  found : ∀ t, h.nextIP tunnelAddresses = some t ↔ ∃ a, IsLeast (h.free tunnelAddresses) a ∧
    t = ipText a
  full : h.nextIP tunnelAddresses = none ↔ ∀ a, a ∉ h.free tunnelAddresses

/-- The hub's address is not written as `intToIp` prints it, no link has it, and no lower one is
free. -/
structure Aliased (h : HubAddress) (tunnelAddresses : List String) : Prop where
  host : h.Host h.ip
  padded : h.text ≠ ipText h.ip
  unused : ¬ Used tunnelAddresses h.ip
  lowest : ∀ a ∈ h.free tunnelAddresses, h.ip < a

end HubAddress

variable {h : HubAddress} {addrs : List String} {a b : Ip} {t : String}

theorem ipToInt_ipText (a : Ip) : ipToInt (ipText a).toList = some a := by
  rw [ipText, String.toList_ofList, ipToInt_intToIp]

theorem ipText_injective : Function.Injective ipText := by
  intro a b he
  have := (ipToInt_ipText a).symm.trans (he ▸ ipToInt_ipText b)
  exact Option.some.inj this

/-- A text without its prefix length is the text before it. -/
theorem stripPrefix_append (s : String) {digits : List Char} (hne : digits ≠ [])
    (hd : ∀ c ∈ digits, c.isDigit = true) :
    stripPrefix (String.ofList (s.toList ++ '/' :: digits)) = s := by
  have hrev : (s.toList ++ '/' :: digits).reverse = digits.reverse ++ '/' :: s.toList.reverse := by
    simp
  have hall : ∀ c ∈ digits.reverse, c.isDigit = true := fun c hc => hd c (List.mem_reverse.mp hc)
  have htake : (digits.reverse ++ '/' :: s.toList.reverse).takeWhile Char.isDigit =
      digits.reverse := by
    rw [List.takeWhile_append_of_pos hall, List.takeWhile_cons_of_neg (by decide), List.append_nil]
  have hdrop : (digits.reverse ++ '/' :: s.toList.reverse).dropWhile Char.isDigit = '/' ::
      s.toList.reverse := by
    rw [List.dropWhile_append_of_pos hall, List.dropWhile_cons_of_neg (by decide)]
  rw [stripPrefix, String.toList_ofList, hrev, htake, hdrop]
  obtain ⟨c, rest, hcons⟩ := List.exists_cons_of_ne_nil (mt List.reverse_eq_nil_iff.mp hne)
  rw [hcons]
  simp

namespace HubAddress

theorem network_eq : h.network = h.subnet.base := by
  rw [network, prefixMask_eq]
  rfl

theorem broadcast_eq : h.broadcast = h.subnet.last := by
  rw [broadcast, network_eq, prefixMask_eq]
  rfl

/-- The loop runs over the host addresses. -/
theorem host_iff : h.Host a ↔ h.network.toNat < a.toNat ∧ a.toNat < h.broadcast.toNat := by
  rw [Host, PrefixBlock.mem_iff_between, ← network_eq, ← broadcast_eq, BitVec.le_def, BitVec.le_def,
    Ne, Ne,
    ← BitVec.toNat_inj, ← BitVec.toNat_inj]
  omega

theorem mem_candidates : a ∈ h.candidates addrs ↔
    h.network.toNat < a.toNat ∧ a.toNat < h.broadcast.toNat ∧
    ipText a ∉ h.text :: addrs.map stripPrefix := by
  rw [candidates, Set.mem_ofPred_eq, host_iff, List.mem_cons, not_or, and_assoc]
  rfl

/-- What the loop finds. -/
theorem nextIP_eq_some :
    h.nextIP addrs = some t ↔ ∃ a, IsLeast (h.candidates addrs) a ∧ ipText a = t := by
  have hlast := h.broadcast.isLt
  rw [nextIP, List.find?_map, Option.map_eq_some_iff]
  constructor
  · rintro ⟨n, hn, rfl⟩
    obtain ⟨hp, hmem, hmin⟩ := List.find?_range'_eq_some.mp hn
    rw [List.mem_range'_1] at hmem
    have htoNat : (BitVec.ofNat 32 n).toNat = n := Nat.mod_eq_of_lt (by omega)
    refine ⟨BitVec.ofNat 32 n, ⟨mem_candidates.mpr ?_, fun b hb => ?_⟩, rfl⟩
    · rw [htoNat]
      exact ⟨by omega, by omega, of_decide_eq_true hp⟩
    · obtain ⟨hlo, -, hb⟩ := mem_candidates.mp hb
      rw [BitVec.le_def, htoNat]
      by_contra hlt
      have hused := hmin b.toNat (by omega) (by omega)
      rw [Function.comp_apply, BitVec.ofNat_toNat, BitVec.setWidth_eq, decide_eq_true hb] at hused
      cases hused
  · rintro ⟨a, ⟨ha, hmin⟩, rfl⟩
    obtain ⟨hlo, hhi, ha⟩ := mem_candidates.mp ha
    refine ⟨a.toNat, List.find?_range'_eq_some.mpr ⟨?_, List.mem_range'_1.mpr ⟨by omega, by omega⟩,
      ?_⟩, ?_⟩
    · rw [Function.comp_apply, BitVec.ofNat_toNat, BitVec.setWidth_eq]
      exact decide_eq_true ha
    · intro n hlo' hlt
      have htoNat : (BitVec.ofNat 32 n).toNat = n := Nat.mod_eq_of_lt (by omega)
      have hnot : BitVec.ofNat 32 n ∉ h.candidates addrs := by
        intro hn
        have := BitVec.le_def.mp (hmin hn)
        omega
      rw [mem_candidates, htoNat] at hnot
      have hin : ipText (BitVec.ofNat 32 n) ∈ h.text :: addrs.map stripPrefix := by
        by_contra hn
        exact hnot ⟨by omega, by omega, hn⟩
      simpa using hin
    · rw [BitVec.ofNat_toNat, BitVec.setWidth_eq]

theorem nextIP_eq_none : h.nextIP addrs = none ↔ ∀ a, a ∉ h.candidates addrs := by
  have hlast := h.broadcast.isLt
  rw [nextIP, List.find?_map, Option.map_eq_none_iff, List.find?_range'_eq_none]
  constructor
  · intro hall a ha
    obtain ⟨hlo, hhi, ha⟩ := mem_candidates.mp ha
    have hused := hall a.toNat (by omega) (by omega)
    rw [Function.comp_apply, BitVec.ofNat_toNat, BitVec.setWidth_eq, decide_eq_true ha] at hused
    cases hused
  · intro hnone n hlo hhi
    have htoNat : (BitVec.ofNat 32 n).toNat = n := Nat.mod_eq_of_lt (by omega)
    have hnot := hnone (BitVec.ofNat 32 n)
    rw [mem_candidates, htoNat] at hnot
    have hin : ipText (BitVec.ofNat 32 n) ∈ h.text :: addrs.map stripPrefix := by
      by_contra hn
      exact hnot ⟨by omega, by omega, hn⟩
    simpa using hin

/-! Only the hub's own address can be a candidate and not free. -/

theorem ne_text_of_ne (hne : a ≠ h.ip) : ipText a ≠ h.text := by
  intro he
  have hread := ipToInt_ipText a
  rw [he, h.parsed] at hread
  exact hne (Option.some.inj hread).symm

theorem candidate_of_free (ha : a ∈ h.free addrs) : a ∈ h.candidates addrs :=
  ⟨ha.1, ne_text_of_ne ha.2.1, ha.2.2⟩

theorem free_of_candidate (ha : a ∈ h.candidates addrs) (hne : a ≠ h.ip) : a ∈ h.free addrs :=
  ⟨ha.1, hne, ha.2.2⟩

/-- The search may give away the hub's own address. -/
theorem aliased_iff : h.Aliased addrs ↔ IsLeast (h.candidates addrs) h.ip := by
  constructor
  · intro hal
    refine ⟨⟨hal.host, hal.padded.symm, hal.unused⟩, fun b hb => ?_⟩
    by_cases hne : b = h.ip
    · rw [hne]
      exact BitVec.le_refl _
    · exact BitVec.le_of_lt (hal.lowest b (free_of_candidate hb hne))
  · rintro ⟨⟨hhost, htext, hunused⟩, hmin⟩
    refine ⟨hhost, htext.symm, hunused, fun a ha => ?_⟩
    exact BitVec.lt_of_le_ne (hmin (candidate_of_free ha)) ha.2.1.symm

/-- Elsewhere the first candidate is the first free address. -/
theorem isLeast_iff (hal : ¬ h.Aliased addrs) :
    IsLeast (h.candidates addrs) a ↔ IsLeast (h.free addrs) a := by
  rw [aliased_iff] at hal
  constructor
  · intro ha
    have hne : a ≠ h.ip := fun he => hal (he ▸ ha)
    exact ⟨free_of_candidate ha.1 hne, fun b hb => ha.2 (candidate_of_free hb)⟩
  · intro ha
    refine ⟨candidate_of_free ha.1, fun b hb => ?_⟩
    by_cases hne : b = h.ip
    · subst hne
      -- a candidate below the hub's address is free, and the least free one is below it
      by_contra hle
      refine hal ⟨hb, fun c hc => ?_⟩
      by_cases hcne : c = h.ip
      · rw [hcne]
        exact BitVec.le_refl _
      · have hac := ha.2 (free_of_candidate hc hcne)
        exact BitVec.le_trans (BitVec.le_of_lt (BitVec.not_le.mp hle)) hac
    · exact ha.2 (free_of_candidate hb hne)

theorem exact_iff_not_aliased : h.Exact addrs ↔ ¬ h.Aliased addrs := by
  constructor
  · intro hexact hal
    have hfound := nextIP_eq_some.mpr ⟨h.ip, aliased_iff.mp hal, rfl⟩
    obtain ⟨a, ha, he⟩ := (hexact.found _).mp hfound
    exact ha.1.2.1 (ipText_injective he).symm
  · intro hal
    constructor
    · intro t
      rw [nextIP_eq_some]
      refine exists_congr fun a => ?_
      rw [isLeast_iff hal, eq_comm]
    · rw [nextIP_eq_none]
      constructor
      · exact fun hnone a ha => hnone a (candidate_of_free ha)
      · intro hnone a ha
        have hne : a = h.ip := by
          by_contra hne
          exact hnone a (free_of_candidate ha hne)
        subst hne
        exact hal ⟨ha.1, ha.2.1.symm, ha.2.2, fun b hb => absurd hb (hnone b)⟩

/-- An address that is given out is the hub's only in that one case. -/
theorem ne_ip_of_nextIP (hal : ¬ h.Aliased addrs) (hnext : h.nextIP addrs = some (ipText a)) :
    a ≠ h.ip ∧ ¬ Used addrs a := by
  obtain ⟨b, hb, he⟩ := ((exact_iff_not_aliased.mpr hal).found _).mp hnext
  rw [ipText_injective he]
  exact hb.1.2

end HubAddress

end FloppyGuard.WireGuard
