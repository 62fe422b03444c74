import FloppyGuard.Ingress.Filter
import Mathlib.Algebra.Order.BigOperators.Group.List

/-! Direct links in the ingress filter: the aliases carry the hub policy over, and nothing else. -/
namespace FloppyGuard.Ingress

variable {inp : FilterInput} {rules : List Rule} {r : Rule} {pkt : Packet} {out : Restore}
  {src : Cidr} {al : DirectAlias} {h : Cidr}

/-- The same gateway without direct links. -/
def withoutDirect (inp : FilterInput) : FilterInput :=
  { inp with directIfaces := [], directAliases := [] }

/-- The packet as it would arrive on the hub interface. -/
def onHub (inp : FilterInput) (pkt : Packet) : Packet := { pkt with inIface := inp.iface }

/-- The hub tunnel address an alias names, when it names one. -/
def IsHubAddress (al : DirectAlias) (x : Ip) : Prop :=
  ∃ h, canonicalCidr (al.hub ++ "/32") = some h ∧ h.base = x

/-- The packet meets the conditions of some active rule, whichever way its source counts. -/
def Admitted (inp : FilterInput) (rules : List Rule) (pkt : Packet) : Prop :=
  ∃ r ∈ activeRules rules, ∃ sources destinations, Usable r sources destinations ∧
    (∃ src ∈ sources, SuitsSource inp src pkt) ∧ SuitsTarget r destinations pkt

theorem hit_allRuleLines (hb : Buildable inp rules) :
    Chain.Hit Line.hits (allRuleLines inp rules) pkt ↔ Admitted inp rules pkt := by
  rw [allRuleLines, Chain.hit_flatMap]
  constructor
  · rintro ⟨r, hr, hh⟩
    obtain ⟨sources, destinations, hu⟩ := hb.usable r hr
    rw [ruleLines_usable hu, hit_expand] at hh
    exact ⟨r, hr, sources, destinations, hu, hh⟩
  · rintro ⟨r, hr, sources, destinations, hu, hh⟩
    exact ⟨r, hr, by rwa [ruleLines_usable hu, hit_expand]⟩

/-- What a restricted chain accepts. -/
theorem walk_accept (hb : Buildable inp rules) (hm : inp.ingressMode = .restricted) :
    walk (restoreOf inp rules).lines pkt = some .accept ↔ pkt.established = true ∨
    Admitted inp rules pkt := by
  rw [walk_restricted hm, ← hit_allRuleLines hb]
  split
  · simp_all
  · split <;> simp_all

theorem walk_drop (hm : inp.ingressMode = .restricted) (hi : pkt.inIface ∈ inp.ifaces)
    (hno : walk (restoreOf inp rules).lines pkt ≠ some .accept) :
    walk (restoreOf inp rules).lines pkt = some .drop := by
  rw [walk_restricted hm] at hno ⊢
  rw [if_pos hi]
  split
  · rw [if_pos ‹_›] at hno
    exact absurd rfl hno
  · rfl

/-- Fewer interfaces give fewer lines. -/
theorem length_ruleLines_withoutDirect :
    (ruleLines (withoutDirect inp) r).length ≤ (ruleLines inp r).length := by
  have hcombo (id : ℕ) (src : Cidr) (dst : Option Cidr) (p : Option Port) :
      (comboLines (withoutDirect inp) id src dst p).length ≤
        (comboLines inp id src dst p).length := by
    simp only [comboLines, withoutDirect, FilterInput.ifaces, List.length_append, List.length_map,
      List.length_cons, List.filter_nil, List.length_nil]
    omega
  unfold ruleLines
  split
  · simp only [expand, List.length_flatMap]
    refine List.sum_le_sum fun src _ => List.sum_le_sum fun dst _ => List.sum_le_sum fun p _ => ?_
    exact hcombo _ _ _ _
  · exact Nat.zero_le _

theorem buildable_withoutDirect (hb : Buildable inp rules) :
    Buildable (withoutDirect inp) rules where
  needed := hb.needed
  wg := hb.wg
  direct := nofun
  few := hb.few
  usable := hb.usable
  fits := by
    refine Nat.le_trans ?_ hb.fits
    simp only [allRuleLines, List.length_flatMap]
    exact List.sum_le_sum fun r _ => length_ruleLines_withoutDirect

theorem suitsSource_withoutDirect : SuitsSource (withoutDirect inp) src pkt ↔
    pkt.src ∈ src ∧ pkt.inIface = inp.iface := by
  simp [SuitsSource, withoutDirect, FilterInput.ifaces]

/-- On the hub interface direct links change nothing. -/
theorem admitted_hub (hb : Buildable inp rules) (hi : pkt.inIface = inp.iface) :
    Admitted inp rules pkt ↔ Admitted (withoutDirect inp) rules pkt := by
  simp only [Admitted, suitsSource_hub hb hi, suitsSource_withoutDirect, hi, and_true]

/-- A source covers an alias's hub address. -/
theorem contains_hub : cidrContains src.render (al.hub ++ "/32") = true ↔
    ∃ x, IsHubAddress al x ∧ x ∈ src := by
  rw [cidrContains_iff]
  constructor
  · rintro ⟨o, i, ho, hi, hc⟩
    obtain rfl : src = o := by simpa using ho
    exact ⟨i.base, ⟨i, hi, rfl⟩, hc.mem i.base_mem⟩
  · rintro ⟨x, ⟨i, hi, rfl⟩, hx⟩
    exact ⟨src, i, canonicalCidr_render src, hi,
      PrefixBlock.contains_of_mem_host (len_of_host_text hi) hx⟩

/-- On a direct interface a source counts as itself, or as the hub address it is the alias of. -/
theorem suitsSource_direct (hi : pkt.inIface ∈ inp.directIfaces) : SuitsSource inp src pkt ↔
    pkt.src ∈ src ∨ ∃ al ∈ inp.directAliases, al.iface = pkt.inIface ∧ pkt.src = al.direct ∧
      ∃ x, IsHubAddress al x ∧ x ∈ src := by
  constructor
  · rintro (⟨hsrc, -⟩ | ⟨al, hal, ha, hif, hd⟩)
    · exact Or.inl hsrc
    · exact Or.inr ⟨al, hal, hif, hd, contains_hub.mp (aliasApplies_iff.mp ha).2.1⟩
  · rintro (hsrc | ⟨al, hal, hif, hd, hx⟩)
    · exact Or.inl ⟨hsrc, List.mem_cons_of_mem _ hi⟩
    -- a source that covers the link address already needs no alias
    by_cases hdirect : al.direct ∈ src
    · exact Or.inl ⟨hd ▸ hdirect, List.mem_cons_of_mem _ hi⟩
    · exact Or.inr ⟨al, hal, aliasApplies_iff.mpr ⟨hif ▸ hi, contains_hub.mpr hx, hdirect⟩, hif, hd⟩

theorem suitsSource_onHub (hb : Buildable inp rules) :
    SuitsSource inp src (onHub inp pkt) ↔ pkt.src ∈ src :=
  suitsSource_hub hb rfl

theorem admitted_direct (hb : Buildable inp rules) (hi : pkt.inIface ∈ inp.directIfaces) :
    Admitted inp rules pkt ↔ Admitted inp rules (onHub inp pkt) ∨
      ∃ al ∈ inp.directAliases, al.iface = pkt.inIface ∧ pkt.src = al.direct ∧
        ∃ x, IsHubAddress al x ∧ Admitted inp rules { onHub inp pkt with src := x } := by
  simp only [Admitted, suitsSource_direct hi]
  constructor
  · rintro ⟨r, hr, sources, destinations, hu, ⟨src, hsrc, hs | ⟨al, hal, hif, hd, x, hx, hin⟩⟩, ht⟩
    · exact Or.inl ⟨r, hr, sources, destinations, hu, ⟨src, hsrc, (suitsSource_onHub hb).mpr hs⟩,
        ht⟩
    · exact Or.inr ⟨al, hal, hif, hd, x, hx, r, hr, sources, destinations, hu,
        ⟨src, hsrc, (suitsSource_hub hb rfl).mpr hin⟩, ht⟩
  · rintro (⟨r, hr, sources, destinations, hu, ⟨src, hsrc, hs⟩, ht⟩ |
      ⟨al, hal, hif, hd, x, hx, r, hr, sources, destinations, hu, ⟨src, hsrc, hs⟩, ht⟩)
    · exact ⟨r, hr, sources, destinations, hu, ⟨src, hsrc, Or.inl ((suitsSource_onHub hb).mp hs)⟩,
        ht⟩
    · exact ⟨r, hr, sources, destinations, hu,
        ⟨src, hsrc, Or.inr ⟨al, hal, hif, hd, x, hx, (suitsSource_hub hb rfl).mp hs⟩⟩, ht⟩

/-- Direct links keep the ingress policy: the hub interface accepts what it accepts
without them, a direct interface what the hub would accept from the packet's source
or from the hub address this source is the alias of, and everything else is dropped. -/
theorem directLinks_keep_policy (hm : inp.ingressMode = .restricted)
    (hbuild : buildIngressRestore inp rules = .ok (some out)) :
    ∃ out₀, buildIngressRestore (withoutDirect inp) rules = .ok (some out₀) ∧
      (∀ pkt : Packet, pkt.inIface = inp.iface →
        (walk out.lines pkt = some .accept ↔ walk out₀.lines pkt = some .accept)) ∧
      (∀ pkt : Packet, pkt.inIface ∈ inp.directIfaces → (walk out.lines pkt = some .accept ↔
        walk out.lines (onHub inp pkt) = some .accept ∨
          ∃ al ∈ inp.directAliases, al.iface = pkt.inIface ∧ pkt.src = al.direct ∧
            ∃ x, IsHubAddress al x ∧ walk out.lines { onHub inp pkt with src := x } =
              some .accept)) ∧
      ∀ pkt : Packet, pkt.inIface ∈ inp.ifaces → walk out.lines pkt ≠ some .accept →
        walk out.lines pkt = some .drop := by
  obtain ⟨hb, rfl⟩ := buildIngressRestore_some hbuild
  have hb₀ := buildable_withoutDirect hb
  refine ⟨_, buildIngressRestore_of_buildable hb₀, ?_, ?_, fun pkt hi hno => walk_drop hm hi hno⟩
  · intro pkt hi
    rw [walk_accept hb hm, walk_accept hb₀ hm, admitted_hub hb hi]
  · intro pkt hi
    simp only [walk_accept hb hm, admitted_direct hb hi]
    have hest : (onHub inp pkt).established = pkt.established := rfl
    simp only [hest]
    constructor
    · rintro (h | h | ⟨al, hal, hif, hd, x, hx, ha⟩)
      · exact Or.inl (Or.inl h)
      · exact Or.inl (Or.inr h)
      · exact Or.inr ⟨al, hal, hif, hd, x, hx, Or.inr ha⟩
    · rintro ((h | h) | ⟨al, hal, hif, hd, x, hx, h | ha⟩)
      · exact Or.inl h
      · exact Or.inr (Or.inl h)
      · exact Or.inl h
      · exact Or.inr (Or.inr ⟨al, hal, hif, hd, x, hx, ha⟩)

/-- The partner gateway's own packet, from its link address. -/
def samplePartnerPacket : Packet := { samplePacket with inIface := "fgd7", src := 0x0aff0002#32 }

theorem directLinks_keep_policy_sample :
    walk (restoreOf sampleInput sampleRules).lines
        { onHub sampleInput samplePartnerPacket with src := 0x0a0a0009#32 } = some .accept ∧
      walk (restoreOf sampleInput sampleRules).lines samplePartnerPacket = some .accept := by
  have hhub : walk (restoreOf sampleInput sampleRules).lines
      { onHub sampleInput samplePartnerPacket with src := 0x0a0a0009#32 } = some .accept := by
        decide +kernel
  obtain ⟨out₀, -, -, hdirect, -⟩ := directLinks_keep_policy rfl sampleInput_builds
  have haddr : IsHubAddress ⟨"fgd7", "10.10.0.9", 0x0aff0002#32⟩ 0x0a0a0009#32 :=
    ⟨hostCidr 0x0a0a0009#32, by decide, by decide⟩
  exact ⟨hhub, (hdirect samplePartnerPacket (by decide)).mpr
    (Or.inr ⟨_, List.mem_singleton_self _, rfl, rfl, _, haddr, hhub⟩)⟩

end FloppyGuard.Ingress
