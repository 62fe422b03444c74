import FloppyGuard.SiteIsolation.Enforcement

/-! The tester decides by containment; the kernel decides per packet. -/
namespace FloppyGuard.SiteIsolation

variable {rt : Runtime} {links : List Link} {pairs : List Pair} {plan : Plan} {p : Pair}
  {A B : Site} {s d c : Cidr} {x y : Ip} {part : Option PairRef}

/-- The whole range lies in one network of the list. -/
def Inside (nets : List Cidr) (c : Cidr) : Prop := ∃ n ∈ nets, n.Contains c

/-- The range shares an address with the list. -/
def Meets (nets : List Cidr) (c : Cidr) : Prop := ∃ n ∈ nets, n.Overlaps c

theorem inSet_iff : inSet A c = true ↔ Inside A.nets c := by simp [inSet, Inside]

theorem touches_iff : touches A c = true ↔ Meets A.nets c := by simp [touches, Meets]

theorem Inside.covers {nets : List Cidr} (h : Inside nets c) (hx : x ∈ c) :
    covers nets x = true := by
  obtain ⟨n, hn, hc⟩ := h
  exact covers_iff.mpr ⟨n, hn, hc.mem hx⟩

theorem meets_iff {nets : List Cidr} : Meets nets c ↔ ∃ x ∈ c, covers nets x = true := by
  constructor
  · rintro ⟨n, hn, ho⟩
    obtain ⟨x, hxn, hxc⟩ := ho.exists_mem
    exact ⟨x, hxc, covers_iff.mpr ⟨n, hn, hxn⟩⟩
  · rintro ⟨x, hxc, hx⟩
    obtain ⟨n, hn, hxn⟩ := covers_iff.mp hx
    exact ⟨n, hn, PrefixBlock.overlaps_of_mem hxn hxc⟩

theorem meets_host {nets : List Cidr} (hc : c.len = 32) : Meets nets c ↔ Inside nets c := by
  simp only [Meets, Inside, PrefixBlock.overlaps_host hc]

/-- One direction of a pair as the loop tests it, on both ends. -/
def PairInside (links : List Link) (s d : Cidr) (p : Pair) : Prop :=
  (Inside (siteNets links p.a) s ∧ Inside (siteNets links p.b) d) ∨
    (Inside (siteNets links p.b) s ∧ Inside (siteNets links p.a) d)

def PairMeets (links : List Link) (s d : Cidr) (p : Pair) : Prop :=
  (Meets (siteNets links p.a) s ∧ Meets (siteNets links p.b) d) ∨
    (Meets (siteNets links p.b) s ∧ Meets (siteNets links p.a) d)

theorem verdictLoop_spec (ps : List Pair)
    (hps : ∀ p ∈ ps, p ∈ (planSiteIsolation rt pairs links).pairs) (part : Option PairRef) :
    let v := verdictLoop (planSiteIsolation rt pairs links) s d ps part
    (v.blocked = true ↔ ∃ p ∈ ps, PairInside links s d p) ∧
      (v.isPartial = true ↔ v.blocked = false ∧
        (part.isSome ∨ ∃ p ∈ ps, PairMeets links s d p)) := by
  induction ps generalizing part with
  | nil => simp [verdictLoop]
  | cons p ps ih =>
    obtain ⟨A, B, hA, hB, -, -, hna, hnb⟩ := plan_sites (hps p (by simp))
    have ih := ih fun q hq => hps q (by simp [hq])
    simp only [verdictLoop, hA, hB, List.exists_mem_cons_iff]
    by_cases h1 : inSet A s = true ∧ inSet B d = true
    · have hp : PairInside links s d p :=
        Or.inl (by rw [← hna, ← hnb, ← inSet_iff, ← inSet_iff]; exact h1)
      simp [h1, hp]
    by_cases h2 : inSet B s = true ∧ inSet A d = true
    · have hp : PairInside links s d p :=
        Or.inr (by rw [← hna, ← hnb, ← inSet_iff, ← inSet_iff]; exact h2)
      simp [h1, h2, hp]
    have hp : ¬ PairInside links s d p := by
      rw [PairInside, ← hna, ← hnb, ← inSet_iff, ← inSet_iff, ← inSet_iff, ← inSet_iff]
      exact not_or.mpr ⟨h1, h2⟩
    have hm : PairMeets links s d p ↔ (touches A s = true ∧ touches B d = true) ∨
        (touches B s = true ∧ touches A d = true) := by
      rw [PairMeets, ← hna, ← hnb, touches_iff, touches_iff, touches_iff, touches_iff]
    simp only [Bool.and_eq_true, h1, h2, if_false, hp, false_or]
    obtain ⟨ihb, ihp⟩ := ih _
    refine ⟨ihb, ihp.trans (and_congr_right fun _ => ?_)⟩
    rw [hm]
    cases part with
    | some r => simp
    | none =>
      by_cases h3 : touches A s = true ∧ touches B d = true <;>
        by_cases h4 : touches B s = true ∧ touches A d = true <;> simp [h3, h4]

section Verdict
variable {src dst : String} (hs : canonicalCidr src = some s) (hd : canonicalCidr dst = some d)
include hs hd

theorem verdict_blocked : (siteIsolationVerdict rt pairs links src dst).blocked = true ↔
    ∃ p ∈ (planSiteIsolation rt pairs links).pairs, PairInside links s d p := by
  simp only [siteIsolationVerdict, hs, hd]
  exact (verdictLoop_spec _ (fun _ hp => hp) none).1

theorem verdict_isPartial : (siteIsolationVerdict rt pairs links src dst).isPartial = true ↔
    (siteIsolationVerdict rt pairs links src dst).blocked = false ∧
      ∃ p ∈ (planSiteIsolation rt pairs links).pairs, PairMeets links s d p := by
  simp only [siteIsolationVerdict, hs, hd]
  simpa using (verdictLoop_spec _ (fun _ hp => hp) none).2

end Verdict

/-- A pair that meets the ranges separates a packet between them, and conversely. -/
theorem pairMeets_iff : PairMeets links s d p ↔ ∃ x ∈ s, ∃ y ∈ d, Separated links [p] x y := by
  simp only [PairMeets, meets_iff, Separated, List.mem_singleton, exists_eq_left]
  constructor
  · rintro (⟨⟨x, hx, ha⟩, y, hy, hb⟩ | ⟨⟨x, hx, hb⟩, y, hy, ha⟩)
    · exact ⟨x, hx, y, hy, Or.inl ⟨ha, hb⟩⟩
    · exact ⟨x, hx, y, hy, Or.inr ⟨hb, ha⟩⟩
  · rintro ⟨x, hx, y, hy, ⟨ha, hb⟩ | ⟨hb, ha⟩⟩
    · exact Or.inl ⟨⟨x, hx, ha⟩, y, hy, hb⟩
    · exact Or.inr ⟨⟨x, hx, hb⟩, y, hy, ha⟩

theorem Separated.of_mem (hp : p ∈ pairs) (h : Separated links [p] x y) :
    Separated links pairs x y := by
  obtain ⟨q, hq, h⟩ := h
  obtain rfl := List.mem_singleton.mp hq
  exact ⟨q, hp, h⟩

theorem Separated.exists_pair (h : Separated links pairs x y) :
    ∃ p ∈ pairs, Enforceable links p ∧ Separated links [p] x y := by
  obtain ⟨p, hp, h⟩ := h
  refine ⟨p, hp, ?_, p, by simp, h⟩
  rcases h with ⟨ha, hb⟩ | ⟨hb, ha⟩ <;> exact ⟨ne_nil_of_covers ha, ne_nil_of_covers hb⟩

theorem PairInside.separated (h : PairInside links s d p) (hx : x ∈ s) (hy : y ∈ d) :
    Separated links [p] x y :=
  ⟨p, by simp,
    h.imp (fun h => ⟨h.1.covers hx, h.2.covers hy⟩) fun h => ⟨h.1.covers hx, h.2.covers hy⟩⟩

/-- Enforcement and verdict agree on every pair of ranges. -/
theorem siteIsolationVerdict_agrees {src dst : String} (hnames : SetNamesDistinct rt links)
    (hs : canonicalCidr src = some s) (hd : canonicalCidr dst = some d) :
    ∃ sc, buildSiteIsolationNft rt pairs links = .ok sc ∧
      let v := siteIsolationVerdict rt pairs links src dst
      (v.blocked = true → ∀ x ∈ s, ∀ y ∈ d, drops sc x y = true) ∧
      (v.blocked = false → v.isPartial = false → ∀ x ∈ s, ∀ y ∈ d, drops sc x y = false) ∧
      (v.isPartial = true → ∃ x ∈ s, ∃ y ∈ d, drops sc x y = true) ∧
      (s.len = 32 → d.len = 32 →
        (v.blocked = true ↔ drops sc s.base d.base = true) ∧ v.isPartial = false) := by
  obtain ⟨sc, hsc⟩ := buildSiteIsolationNft_ok rt pairs links
  have hdrop (x y : Ip) := drops_iff (x := x) (y := y) hsc hnames
  have hall : (siteIsolationVerdict rt pairs links src dst).blocked = true →
      ∀ x ∈ s, ∀ y ∈ d, drops sc x y = true := by
    intro hb x hx y hy
    obtain ⟨p, hp, hin⟩ := (verdict_blocked hs hd).mp hb
    exact (hdrop x y).mpr ((hin.separated hx hy).of_mem (mem_plan_pairs.mp hp).1)
  have hmeets (x y : Ip) (hx : x ∈ s) (hy : y ∈ d) (h : drops sc x y = true) :
      ∃ p ∈ (planSiteIsolation rt pairs links).pairs, PairMeets links s d p := by
    obtain ⟨p, hp, henf, hsep⟩ := ((hdrop x y).mp h).exists_pair
    exact ⟨p, mem_plan_pairs.mpr ⟨hp, henf⟩, pairMeets_iff.mpr ⟨x, hx, y, hy, hsep⟩⟩
  refine ⟨sc, hsc, hall, ?_, ?_, ?_⟩
  · intro hb hp x hx y hy
    by_contra hn
    have := (verdict_isPartial hs hd).mpr ⟨hb, hmeets x y hx hy (by simpa using hn)⟩
    simp [hp] at this
  · intro hp
    obtain ⟨-, p, hpp, hm⟩ := (verdict_isPartial hs hd).mp hp
    obtain ⟨x, hx, y, hy, hsep⟩ := pairMeets_iff.mp hm
    exact ⟨x, hx, y, hy, (hdrop x y).mpr (hsep.of_mem (mem_plan_pairs.mp hpp).1)⟩
  · intro hs32 hd32
    -- on hosts the loop's two tests coincide, so nothing is left over as partial
    have heq (p : Pair) : PairMeets links s d p ↔ PairInside links s d p := by
      simp only [PairMeets, PairInside, meets_host hs32, meets_host hd32]
    refine ⟨⟨fun hb => hall hb _ s.base_mem _ d.base_mem, fun h => ?_⟩, ?_⟩
    · obtain ⟨p, hp, hm⟩ := hmeets _ _ s.base_mem d.base_mem h
      exact (verdict_blocked hs hd).mpr ⟨p, hp, (heq p).mp hm⟩
    · by_contra hn
      obtain ⟨hb, p, hp, hm⟩ := (verdict_isPartial hs hd).mp (by simpa using hn)
      have := (verdict_blocked hs hd).mpr ⟨p, hp, (heq p).mp hm⟩
      simp [hb] at this

/-- Two links and their digests. -/
def sampleRuntime : Runtime where
  sha256Hex s :=
    if s = "wg0:berlin=" then "a5e05788fb802d17a3eebc9ecd03607f434bf1cfb8d3e9bbb270339ffb6a976c"
    else if s = "wg0:hamburg=" then
      "1288342358bc54a3639a85eaca7edda53814cf41b6ee0dab3c1b7d36aa1ed2e9"
    else s
  normalizeNfkd := id

def sampleLinks : List Link :=
  [⟨"wg0:berlin=", "Berlin", some .siteToSite, ["10.1.0.0/16"], ["10.8.0.2/32"], true, true⟩,
    ⟨"wg0:hamburg=", "Hamburg", some .hubLink, ["10.2.0.7/24"], [], true, true⟩]

theorem sampleLinks_setNames : SetNamesDistinct sampleRuntime sampleLinks := by
  rintro _ ⟨l, hl, rfl⟩ _ ⟨m, hm, rfl⟩ h
  simp only [sampleLinks, List.mem_cons, List.not_mem_nil, or_false] at hl hm
  rcases hl with rfl | rfl <;> rcases hm with rfl | rfl <;> first | rfl | exact absurd h (by decide)

def samplePairs : List Pair := [⟨"wg0:berlin=", "wg0:hamburg="⟩]

theorem siteIsolationVerdict_agrees_sample :
    (siteIsolationVerdict sampleRuntime samplePairs sampleLinks "10.1.2.0/24" "10.2.0.9").blocked =
      true ∧
    ∃ sc, buildSiteIsolationNft sampleRuntime samplePairs sampleLinks = .ok sc ∧
      drops sc 0x0a010203#32 0x0a020009#32 = true := by
  have hb : (siteIsolationVerdict sampleRuntime samplePairs sampleLinks
      "10.1.2.0/24" "10.2.0.9").blocked = true := by decide +kernel
  have hs : canonicalCidr "10.1.2.0/24" = some (.around 0x0a010200#32 24 (by decide)) := by decide
  have hd : canonicalCidr "10.2.0.9" = some (.around 0x0a020009#32 32 (by decide)) := by decide
  obtain ⟨sc, hsc, hall, -⟩ := siteIsolationVerdict_agrees sampleLinks_setNames hs hd
  exact ⟨hb, sc, hsc, hall hb _ (by decide) _ (by decide)⟩

end FloppyGuard.SiteIsolation
