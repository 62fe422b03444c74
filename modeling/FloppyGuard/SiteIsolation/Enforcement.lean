import FloppyGuard.SiteIsolation.Rules

/-! What the plan keeps, what the emitted table drops, and the agreement of the verdict. -/
namespace FloppyGuard.SiteIsolation

variable {rt : Runtime} {links : List Link} {pairs : List Pair} {plan : Plan} {p : Pair}
  {id : String}
  {la lb l : Link} {s d : Cidr} {x y : Ip}

/-- The networks enforced for a link id: none unless it is a known site link. -/
def siteNets (links : List Link) (id : String) : List Cidr :=
  match byId links id with
  | some l => if isSiteLink l then (siteNetworks l).nets else []
  | none => []

def Enforceable (links : List Link) (p : Pair) : Prop :=
  siteNets links p.a ≠ [] ∧ siteNets links p.b ≠ []

instance : DecidablePred (Enforceable links) := fun _ => inferInstanceAs (Decidable (_ ∧ _))

/-- Every cached site is the one its link gives now, and enforced pairs have both. -/
structure Planned (rt : Runtime) (links : List Link) (plan : Plan) : Prop where
  sites : ∀ t ∈ plan.sites, ∃ l, byId links t.id = some l ∧ t = newSite rt t.id l
  pairs : ∀ p ∈ plan.pairs, (plan.site? p.a).isSome ∧ (plan.site? p.b).isSome

namespace Planned

theorem empty (rt : Runtime) (links : List Link) : Planned rt links ⟨[], [], []⟩ :=
  ⟨by simp, by simp⟩

theorem warn (h : Planned rt links plan) (ws : List PlanWarning) :
    Planned rt links (plan.warn ws) :=
  ⟨h.sites, h.pairs⟩

theorem site_eq (h : Planned rt links plan) {t : Site} (ht : plan.site? id = some t)
    (hl : byId links id = some l) : t = newSite rt id l := by
  have hid : t.id = id := by simpa using List.find?_some ht
  obtain ⟨l', hl', he⟩ := h.sites t (List.mem_of_find?_eq_some ht)
  rw [hid, hl] at hl'
  rw [he, hid, Option.some.inj hl']

theorem siteFor_fst (h : Planned rt links plan) (hl : byId links id = some l) :
    (siteFor rt plan id l).1 = newSite rt id l := by
  unfold siteFor
  split
  · exact h.site_eq ‹_› hl
  · rfl

theorem siteFor_site? (h : Planned rt links plan) (hl : byId links id = some l) (k : String) :
    (siteFor rt plan id l).2.site? k = if k = id then some (newSite rt id l) else plan.site? k := by
  unfold siteFor
  split
  · rename_i t ht
    split
    · subst k; rw [ht, h.site_eq ht hl]
    · rfl
  · rename_i hn
    simp only [Plan.site?, List.find?_append]
    split
    · subst k
      simp only [Plan.site?] at hn
      simp [hn, newSite]
    · rename_i hk
      have hk' : ¬ id = k := fun he => hk he.symm
      simp [newSite, hk']

theorem siteFor (h : Planned rt links plan) (hl : byId links id = some l) :
    Planned rt links (siteFor rt plan id l).2 := by
  have hpairs : (SiteIsolation.siteFor rt plan id l).2.pairs = plan.pairs := by
    unfold SiteIsolation.siteFor
    split <;> rfl
  constructor
  · intro t ht
    unfold SiteIsolation.siteFor at ht
    split at ht
    · exact h.sites t ht
    · simp only [List.mem_append, List.mem_singleton] at ht
      rcases ht with ht | rfl
      · exact h.sites t ht
      · exact ⟨l, hl, rfl⟩
  · intro p hp
    rw [hpairs] at hp
    have := h.pairs p hp
    rw [h.siteFor_site? hl, h.siteFor_site? hl]
    constructor <;> split <;> simp_all

end Planned

theorem siteFor_pairs : (siteFor rt plan id l).2.pairs = plan.pairs := by
  unfold siteFor
  split <;> rfl

theorem siteNets_eq (rt : Runtime) (h : byId links id = some l) (hs : isSiteLink l = true) :
    siteNets links id = (newSite rt id l).nets := by
  simp [siteNets, h, hs, newSite]

/-- What `planPair` can do: skip the pair before or after building its sites, or enforce it. -/
inductive PairOutcome (rt : Runtime) (links : List Link) (plan : Plan) (p : Pair) : Plan → Prop
  | skipped (ws : List PlanWarning) (h : ¬ Enforceable links p) :
      PairOutcome rt links plan p (plan.warn ws)
  | noNetworks {u v : Link} (ws : List PlanWarning) (ha : byId links p.a = some u)
      (hb : byId links p.b = some v) (h : ¬ Enforceable links p) :
      PairOutcome rt links plan p ((siteFor rt (siteFor rt plan p.a u).2 p.b v).2.warn ws)
  | enforced {u v : Link} (ws : List PlanWarning) (ha : byId links p.a = some u)
      (hb : byId links p.b = some v) (h : Enforceable links p) :
      PairOutcome rt links plan p
        { (siteFor rt (siteFor rt plan p.a u).2 p.b v).2.warn ws with pairs := plan.pairs ++ [p] }

theorem filter_pair_ne_nil {α : Type*} {q : α → Bool} {u v : α} (h : q u = true ∨ q v = true) :
    [u, v].filter q ≠ [] := by
  intro hn
  rw [List.filter_eq_nil_iff] at hn
  rcases h with h | h
  · exact hn u (by simp) h
  · exact hn v (by simp) h

theorem planPair_outcome (h : Planned rt links plan) (p : Pair) :
    PairOutcome rt links plan p (planPair rt links plan p) := by
  unfold planPair
  split
  · rename_i la lb ha hb
    have hA := h.siteFor_fst ha
    have hB := (h.siteFor ha).siteFor_fst hb
    by_cases hsite : isSiteLink la = true ∧ isSiteLink lb = true
    · have hs : [(p.a, la), (p.b, lb)].filter (fun x => !isSiteLink x.2) = [] := by simp [hsite]
      have na := siteNets_eq rt ha hsite.1
      have nb := siteNets_eq rt hb hsite.2
      simp only [hs, ne_eq, not_true_eq_false, if_false, hA, hB]
      by_cases henf : Enforceable links p
      · have hea := List.isEmpty_eq_false_iff.mpr (na ▸ henf.1)
        have heb := List.isEmpty_eq_false_iff.mpr (nb ▸ henf.2)
        simp only [List.filter_cons, List.filter_nil, hea, heb, Bool.false_eq_true, if_false,
          not_true_eq_false]
        split
        · simpa [Plan.warn, siteFor_pairs] using PairOutcome.enforced _ ha hb henf
        · have he : PairOutcome rt links plan p _ := .enforced [] ha hb henf
          simpa [Plan.warn, siteFor_pairs] using he
      · rw [if_pos]
        · exact .noNetworks _ ha hb henf
        · apply filter_pair_ne_nil
          rw [Enforceable, na, nb, not_and_or, not_not, not_not] at henf
          simpa using henf
    · rw [if_pos]
      · refine .skipped _ fun henf => hsite ?_
        simp only [Enforceable, siteNets, ha, hb] at henf
        simp_all
      · apply filter_pair_ne_nil
        simpa using not_and_or.mp hsite
  · rename_i hnone
    refine .skipped _ fun henf => ?_
    simp only [Enforceable, siteNets] at henf
    cases ha : byId links p.a with
    | none => simp [ha] at henf
    | some la =>
      cases hb : byId links p.b with
      | none => simp [hb] at henf
      | some lb => exact hnone la lb ha hb

theorem planned_planPair (h : Planned rt links plan) (p : Pair) :
    Planned rt links (planPair rt links plan p) := by
  have ho := planPair_outcome h p
  generalize planPair rt links plan p = r at ho ⊢
  cases ho with
  | skipped ws _ => exact h.warn ws
  | noNetworks ws ha hb _ => exact ((h.siteFor ha).siteFor hb).warn ws
  | @enforced u v ws ha hb henf =>
    have h2 := (h.siteFor ha).siteFor hb
    refine ⟨h2.sites, ?_⟩
    intro q hq
    have hq : q ∈ plan.pairs ++ [p] := hq
    rw [List.mem_append, List.mem_singleton] at hq
    rcases hq with hq | rfl
    · exact h2.pairs q (by rwa [siteFor_pairs, siteFor_pairs])
    · have hsome : ((siteFor rt (siteFor rt plan q.a u).2 q.b v).2.site? q.a).isSome ∧
          ((siteFor rt (siteFor rt plan q.a u).2 q.b v).2.site? q.b).isSome := by
        rw [(h.siteFor ha).siteFor_site? hb, (h.siteFor ha).siteFor_site? hb, h.siteFor_site? ha]
        by_cases he : q.a = q.b <;> simp [he]
      exact hsome

theorem planPair_pairs (h : Planned rt links plan) (p : Pair) : (planPair rt links plan p).pairs =
    plan.pairs ++ if Enforceable links p then [p] else [] := by
  have ho := planPair_outcome h p
  generalize planPair rt links plan p = r at ho ⊢
  cases ho with
  | skipped ws hn => simp [Plan.warn, hn]
  | noNetworks ws ha hb hn => simp [Plan.warn, siteFor_pairs, hn]
  | enforced ws ha hb henf => simp [henf]

/-- The whole loop keeps the cache sound and collects the enforceable pairs in order. -/
theorem planned_foldl (h : Planned rt links plan) (pairs : List Pair) :
    Planned rt links (pairs.foldl (planPair rt links) plan) ∧
      (pairs.foldl (planPair rt links) plan).pairs =
        plan.pairs ++ pairs.filter fun p => decide (Enforceable links p) := by
  induction pairs generalizing plan with
  | nil => simp [h]
  | cons p pairs ih =>
    obtain ⟨hp, he⟩ := ih (planned_planPair h p)
    refine ⟨hp, ?_⟩
    rw [List.foldl_cons, he, planPair_pairs h, List.append_assoc]
    by_cases hp : Enforceable links p <;> simp [hp]

theorem plan_pairs : (planSiteIsolation rt pairs links).pairs =
    pairs.filter fun p => decide (Enforceable links p) :=
  (planned_foldl (Planned.empty rt links) pairs).2

theorem mem_plan_pairs :
    p ∈ (planSiteIsolation rt pairs links).pairs ↔ p ∈ pairs ∧ Enforceable links p := by
  simp [plan_pairs]

/-- Dropping the unused sites changes no lookup of a used one. -/
theorem plan_site? (h : id ∈ (planSiteIsolation rt pairs links).pairs.flatMap fun p => [p.a, p.b]) :
    (planSiteIsolation rt pairs links).site? id =
      (pairs.foldl (planPair rt links) ⟨[], [], []⟩).site? id := by
  unfold Plan.site?
  rw [show (planSiteIsolation rt pairs links).sites = List.filter _ _ from rfl, List.find?_filter]
  congr 1
  funext s
  by_cases hs : s.id = id
  · subst hs
    simpa [planSiteIsolation] using h
  · simp [hs]

theorem planned_plan (rt : Runtime) (pairs : List Pair) (links : List Link) :
    Planned rt links (planSiteIsolation rt pairs links) := by
  obtain ⟨h, -⟩ := planned_foldl (Planned.empty rt links) pairs
  refine ⟨fun t ht => h.sites t (List.mem_of_mem_filter ht), fun p hp => ?_⟩
  have hused (id : String) (hid : id = p.a ∨ id = p.b) :
      id ∈ (planSiteIsolation rt pairs links).pairs.flatMap fun p => [p.a, p.b] :=
    List.mem_flatMap.mpr ⟨p, hp, by simpa using hid⟩
  rw [plan_site? (hused _ (Or.inl rfl)), plan_site? (hused _ (Or.inr rfl))]
  exact h.pairs p hp

/-- A nonempty network list belongs to a known site link. -/
theorem exists_link_of_siteNets (h : siteNets links id ≠ []) :
    ∃ l, byId links id = some l ∧ isSiteLink l = true ∧
    siteNets links id = (siteNetworks l).nets := by
  unfold siteNets at h ⊢
  cases hl : byId links id with
  | none => simp [hl] at h
  | some l =>
    by_cases hs : isSiteLink l = true
    · exact ⟨l, rfl, hs, by simp [hs]⟩
    · simp [hl, hs] at h

/-- The cached sites of an enforced pair carry exactly the enforced networks. -/
theorem plan_sites (hp : p ∈ (planSiteIsolation rt pairs links).pairs) :
    ∃ A B, (planSiteIsolation rt pairs links).site? p.a = some A ∧
      (planSiteIsolation rt pairs links).site? p.b = some B ∧
      A.set = siteSetName rt p.a ∧ B.set = siteSetName rt p.b ∧
      A.nets = siteNets links p.a ∧ B.nets = siteNets links p.b := by
  have hP := planned_plan rt pairs links
  obtain ⟨hA, hB⟩ := hP.pairs p hp
  obtain ⟨A, hA⟩ := Option.isSome_iff_exists.mp hA
  obtain ⟨B, hB⟩ := Option.isSome_iff_exists.mp hB
  obtain ⟨la, hla, -, hna⟩ := exists_link_of_siteNets (mem_plan_pairs.mp hp).2.1
  obtain ⟨lb, hlb, -, hnb⟩ := exists_link_of_siteNets (mem_plan_pairs.mp hp).2.2
  refine ⟨A, B, hA, hB, ?_⟩
  rw [hP.site_eq hA hla, hP.site_eq hB hlb, hna, hnb]
  exact ⟨rfl, rfl, rfl, rfl⟩

/-! The table the hub runs, as the emitted lines define it. -/

/-- The elements a line defines for a set name. -/
def NftLine.elementsFor (name : String) : NftLine → List Cidr
  | .set n _ elements => if n = name then elements else []
  | _ => []

def elementsOf (sc : Script) (name : String) : List Cidr := sc.flatMap (NftLine.elementsFor name)

def covers (nets : List Cidr) (x : Ip) : Bool := nets.any fun n => decide (x ∈ n)

/-- Some rule `ip saddr @X ip daddr @Y` has the source in set `X` and the destination in `Y`. -/
def drops (sc : Script) (x y : Ip) : Bool :=
  sc.any fun
    | .drop X Y _ => covers (elementsOf sc X) x && covers (elementsOf sc Y) y
    | _ => false

/-- The separation the stored pairs stand for, in either direction. -/
def Separated (links : List Link) (pairs : List Pair) (x y : Ip) : Prop :=
  ∃ p ∈ pairs, (covers (siteNets links p.a) x ∧ covers (siteNets links p.b) y) ∨
    (covers (siteNets links p.b) x ∧ covers (siteNets links p.a) y)

/-- Set names tell the known links apart. -/
def SetNamesDistinct (rt : Runtime) (links : List Link) : Prop :=
  Set.InjOn (siteSetName rt) {id | ∃ l ∈ links, l.id = id}

theorem covers_iff {nets : List Cidr} : covers nets x = true ↔ ∃ n ∈ nets, x ∈ n := by
  simp [covers]

theorem ne_nil_of_covers {nets : List Cidr} (h : covers nets x = true) : nets ≠ [] := by
  rintro rfl
  simp [covers] at h

theorem exists_covers {nets : List Cidr} (h : nets ≠ []) : ∃ x, covers nets x = true := by
  obtain ⟨n, nets, rfl⟩ := List.exists_cons_of_ne_nil h
  exact ⟨n.base, covers_iff.mpr ⟨n, by simp, n.base_mem⟩⟩

theorem known_of_byId (h : byId links id = some l) : ∃ l ∈ links, l.id = id := by
  refine ⟨l, ?_, by simpa using List.find?_some h⟩
  simpa using List.mem_of_find?_eq_some h

theorem byId_eq_some (hl : l ∈ links) (hid : l.id = id) (hu : ∀ k ∈ links, k.id = id → k = l) :
    byId links id = some l := by
  cases hf : byId links id with
  | none =>
    unfold byId at hf
    rw [List.find?_eq_none] at hf
    exact absurd (hf l (by simpa using hl)) (by simp [hid])
  | some k =>
    have hk : k ∈ links := by simpa using List.mem_of_find?_eq_some hf
    rw [hu k hk (by simpa using List.find?_some hf)]

theorem byId_eq_none (h : ∀ k ∈ links, k.id ≠ id) : byId links id = none := by
  unfold byId
  rw [List.find?_eq_none]
  simpa using h

/-- The builder never refuses: every element is already canonical. -/
theorem buildSiteIsolationNft_ok (rt : Runtime) (pairs : List Pair) (links : List Link) :
    ∃ sc, buildSiteIsolationNft rt pairs links = .ok sc := by
  unfold buildSiteIsolationNft
  have hnone (nets : List Cidr) : nets.find? (fun n => canonicalCidr n.render ≠ some n) = none := by
    simp
  simp only [hnone]
  exact ⟨_, rfl⟩

section Script
variable {sc : Script} (h : buildSiteIsolationNft rt pairs links = .ok sc)
include h

theorem set_mem_script {n c : String} {els : List Cidr} : NftLine.set n c els ∈ sc ↔
    ∃ t ∈ (planSiteIsolation rt pairs links).sites, setLine rt t = .set n c els := by
  unfold buildSiteIsolationNft at h
  dsimp only at h
  split at h
  · cases h
  · obtain rfl := Except.ok.inj h
    have hp (p : Pair) : NftLine.set n c els ∉ pairLines rt (planSiteIsolation rt pairs links)
        p := by
      unfold pairLines
      split <;> simp [dropLine]
    simp [hp]

theorem drop_mem_script {X Y c : String} : NftLine.drop X Y c ∈ sc ↔
    ∃ p ∈ (planSiteIsolation rt pairs links).pairs,
      NftLine.drop X Y c ∈ pairLines rt (planSiteIsolation rt pairs links) p := by
  unfold buildSiteIsolationNft at h
  dsimp only at h
  split at h
  · cases h
  · obtain rfl := Except.ok.inj h
    simp [setLine]

theorem mem_elementsOf {name : String} {n : Cidr} : n ∈ elementsOf sc name ↔
    ∃ t ∈ (planSiteIsolation rt pairs links).sites, t.set = name ∧ n ∈ t.nets := by
  simp only [elementsOf, List.mem_flatMap]
  constructor
  · rintro ⟨ln, hln, hn⟩
    cases ln with
    | set m c els =>
      obtain ⟨t, ht, he⟩ := (set_mem_script h).mp hln
      simp only [setLine, NftLine.set.injEq] at he
      obtain ⟨rfl, -, rfl⟩ := he
      rw [NftLine.elementsFor] at hn
      split at hn
      · exact ⟨t, ht, ‹_›, hn⟩
      · cases hn
    | raw text => cases hn
    | drop X Y c => cases hn
  · rintro ⟨t, ht, rfl, hn⟩
    exact ⟨setLine rt t, (set_mem_script h).mpr ⟨t, ht, rfl⟩,
      by simpa [setLine, NftLine.elementsFor] using hn⟩

/-- With distinct set names, the elements behind an enforced site's set are its own networks. -/
theorem covers_elementsOf (hd : SetNamesDistinct rt links) {A : Site}
    (hA : (planSiteIsolation rt pairs links).site? id = some A) :
    covers (elementsOf sc (siteSetName rt id)) x = covers A.nets x := by
  have hmem := List.mem_of_find?_eq_some hA
  have hid : A.id = id := by simpa using List.find?_some hA
  have hsites := (planned_plan rt pairs links).sites
  obtain ⟨l, hl, hAl⟩ := hsites A hmem
  have hset : A.set = siteSetName rt id := by rw [hAl, ← hid]; rfl
  rw [Bool.eq_iff_iff, covers_iff, covers_iff]
  constructor
  · rintro ⟨n, hn, hx⟩
    obtain ⟨t, ht, hname, hn⟩ := (mem_elementsOf h).mp hn
    obtain ⟨l', hl', htl⟩ := hsites t ht
    have hname : siteSetName rt t.id = siteSetName rt A.id := by
      rw [← hid] at hname; rw [← hname, htl]; rfl
    have he : t.id = A.id := hd (known_of_byId hl') (known_of_byId hl) hname
    rw [he, hl] at hl'
    obtain rfl := Option.some.inj hl'
    exact ⟨n, by rw [hAl, ← he, ← htl]; exact hn, hx⟩
  · rintro ⟨n, hn, hx⟩
    exact ⟨n, (mem_elementsOf h).mpr ⟨A, hmem, hset, hn⟩, hx⟩

theorem drop_line_sets {X Y c : String} (hX : NftLine.drop X Y c ∈ sc) :
    ∃ p ∈ (planSiteIsolation rt pairs links).pairs,
      (X = siteSetName rt p.a ∧ Y = siteSetName rt p.b) ∨
      (X = siteSetName rt p.b ∧ Y = siteSetName rt p.a) := by
  obtain ⟨p, hp, hpl⟩ := (drop_mem_script h).mp hX
  obtain ⟨A, B, hA, hB, ha, hb, -, -⟩ := plan_sites hp
  simp only [pairLines, hA, hB, dropLine, List.mem_cons, NftLine.drop.injEq, List.not_mem_nil,
    or_false, ha, hb] at hpl
  exact ⟨p, hp, hpl.imp (fun h => ⟨h.1, h.2.1⟩) fun h => ⟨h.1, h.2.1⟩⟩

theorem drop_line_mem (hp : p ∈ (planSiteIsolation rt pairs links).pairs) :
    (∃ c, NftLine.drop (siteSetName rt p.a) (siteSetName rt p.b) c ∈ sc) ∧
      ∃ c, NftLine.drop (siteSetName rt p.b) (siteSetName rt p.a) c ∈ sc := by
  obtain ⟨A, B, hA, hB, ha, hb, -, -⟩ := plan_sites hp
  have hl : pairLines rt (planSiteIsolation rt pairs links) p =
      [dropLine rt A B, dropLine rt B A] := by
    simp only [pairLines, hA, hB]
  rw [← ha, ← hb]
  exact ⟨⟨_, (drop_mem_script h).mpr ⟨p, hp, by rw [hl]; exact List.mem_cons_self⟩⟩,
    ⟨_, (drop_mem_script h).mpr
      ⟨p, hp, by rw [hl]; exact List.mem_cons_of_mem _ List.mem_cons_self⟩⟩⟩

/-- The emitted table drops exactly the packets between the two sides of a stored pair. -/
theorem drops_iff (hd : SetNamesDistinct rt links) :
    drops sc x y = true ↔ Separated links pairs x y := by
  have hset (p : Pair) (hp : p ∈ (planSiteIsolation rt pairs links).pairs) (z : Ip) :
      covers (elementsOf sc (siteSetName rt p.a)) z = covers (siteNets links p.a) z ∧
        covers (elementsOf sc (siteSetName rt p.b)) z = covers (siteNets links p.b) z := by
    obtain ⟨A, B, hA, hB, -, -, hna, hnb⟩ := plan_sites hp
    rw [covers_elementsOf h hd hA, covers_elementsOf h hd hB, hna, hnb]
    exact ⟨rfl, rfl⟩
  simp only [drops, List.any_eq_true]
  constructor
  · rintro ⟨ln, hln, hx⟩
    cases ln with
    | drop X Y c =>
      obtain ⟨p, hp, hXY⟩ := drop_line_sets h hln
      rw [Bool.and_eq_true] at hx
      refine ⟨p, (mem_plan_pairs.mp hp).1, ?_⟩
      rcases hXY with ⟨rfl, rfl⟩ | ⟨rfl, rfl⟩
      · rw [(hset p hp x).1, (hset p hp y).2] at hx
        exact Or.inl hx
      · rw [(hset p hp x).2, (hset p hp y).1] at hx
        exact Or.inr hx
    | raw text => cases hx
    | set n c els => cases hx
  · rintro ⟨p, hp, hx⟩
    have henf : Enforceable links p := by
      rcases hx with ⟨h1, h2⟩ | ⟨h1, h2⟩
      · exact ⟨ne_nil_of_covers h1, ne_nil_of_covers h2⟩
      · exact ⟨ne_nil_of_covers h2, ne_nil_of_covers h1⟩
    have hp : p ∈ (planSiteIsolation rt pairs links).pairs := mem_plan_pairs.mpr ⟨hp, henf⟩
    obtain ⟨⟨c, hc⟩, c', hc'⟩ := drop_line_mem h hp
    rcases hx with hx | hx
    · exact ⟨_, hc, by simp only [(hset p hp x).1, (hset p hp y).2, hx, Bool.and_self]⟩
    · exact ⟨_, hc', by simp only [(hset p hp x).2, (hset p hp y).1, hx, Bool.and_self]⟩

end Script

/-! More networks behind the enforced pairs never lift a drop. -/

/-- The link id is one side of a pair the plan enforces. -/
def Separating (links : List Link) (pairs : List Pair) (id : String) : Prop :=
  ∃ p ∈ pairs, Enforceable links p ∧ (id = p.a ∨ id = p.b)

theorem separating_of_site {A : Site} (hA : A ∈ (planSiteIsolation rt pairs links).sites) :
    Separating links pairs A.id := by
  have hused := List.of_mem_filter hA
  simp only [List.contains_eq_mem, List.mem_flatMap, List.mem_cons, List.not_mem_nil, or_false,
    decide_eq_true_eq] at hused
  obtain ⟨p, hp, hid⟩ := hused
  exact ⟨p, (mem_plan_pairs.mp hp).1, (mem_plan_pairs.mp hp).2, hid⟩

theorem Separating.siteNets_ne_nil (h : Separating links pairs id) : siteNets links id ≠ [] := by
  obtain ⟨p, -, henf, rfl | rfl⟩ := h
  · exact henf.1
  · exact henf.2

/-- The elements behind a set name are those of the separated links of that name. -/
theorem covers_elementsOf_iff {sc : Script} (h : buildSiteIsolationNft rt pairs links = .ok sc)
    {name : String} : covers (elementsOf sc name) x = true ↔
      ∃ id, Separating links pairs id ∧ siteSetName rt id = name ∧
      covers (siteNets links id) x = true := by
  rw [covers_iff]
  constructor
  · rintro ⟨n, hn, hx⟩
    obtain ⟨t, ht, hname, hn⟩ := (mem_elementsOf h).mp hn
    have hsep := separating_of_site ht
    obtain ⟨l, hl, he⟩ := (planned_plan rt pairs links).sites t ht
    obtain ⟨l', hl', -, hnets⟩ := exists_link_of_siteNets hsep.siteNets_ne_nil
    obtain rfl := Option.some.inj (hl.symm.trans hl')
    refine ⟨t.id, hsep, by rw [← hname, he]; rfl, covers_iff.mpr ⟨n, ?_, hx⟩⟩
    rw [hnets]
    rw [he] at hn
    exact hn
  · rintro ⟨id, ⟨p, hp, henf, hid⟩, rfl, hx⟩
    obtain ⟨n, hn, hxn⟩ := covers_iff.mp hx
    obtain ⟨A, B, hA, hB, ha, hb, hna, hnb⟩ := plan_sites (mem_plan_pairs.mpr ⟨hp, henf⟩)
    rcases hid with rfl | rfl
    · exact ⟨n, (mem_elementsOf h).mpr ⟨A, List.mem_of_find?_eq_some hA, ha, hna ▸ hn⟩, hxn⟩
    · exact ⟨n, (mem_elementsOf h).mpr ⟨B, List.mem_of_find?_eq_some hB, hb, hnb ▸ hn⟩, hxn⟩

theorem drops_mono {links' : List Link} {sc sc' : Script}
    (h : buildSiteIsolationNft rt pairs links = .ok sc)
    (h' : buildSiteIsolationNft rt pairs links' = .ok sc')
    (hc : ∀ id, Separating links pairs id → ∀ x, covers (siteNets links id) x = true →
      covers (siteNets links' id) x = true)
    (hd : drops sc x y = true) : drops sc' x y = true := by
  have henf {p : Pair} (hp : p ∈ pairs) (he : Enforceable links p) : Enforceable links' p := by
    have hne (id : String) (hid : id = p.a ∨ id = p.b) : siteNets links' id ≠ [] := by
      have hsep : Separating links pairs id := ⟨p, hp, he, hid⟩
      obtain ⟨z, hz⟩ := exists_covers hsep.siteNets_ne_nil
      exact ne_nil_of_covers (hc id hsep z hz)
    exact ⟨hne p.a (Or.inl rfl), hne p.b (Or.inr rfl)⟩
  have hset {name : String} {z : Ip} (hz : covers (elementsOf sc name) z = true) :
      covers (elementsOf sc' name) z = true := by
    obtain ⟨id, hsep, hname, hz⟩ := (covers_elementsOf_iff h).mp hz
    have hz' := hc id hsep z hz
    obtain ⟨p, hp, he, hid⟩ := hsep
    exact (covers_elementsOf_iff h').mpr ⟨id, ⟨p, hp, henf hp he, hid⟩, hname, hz'⟩
  simp only [drops, List.any_eq_true] at hd ⊢
  obtain ⟨ln, hln, hx⟩ := hd
  cases ln with
  | raw text => cases hx
  | set n c els => cases hx
  | drop X Y c =>
    rw [Bool.and_eq_true] at hx
    obtain ⟨p, hp, hXY⟩ := drop_line_sets h hln
    obtain ⟨hp, he⟩ := mem_plan_pairs.mp hp
    obtain ⟨⟨c, hc⟩, c', hc'⟩ := drop_line_mem h' (mem_plan_pairs.mpr ⟨hp, henf hp he⟩)
    rcases hXY with ⟨rfl, rfl⟩ | ⟨rfl, rfl⟩
    · exact ⟨_, hc, by simp only [hset hx.1, hset hx.2, Bool.and_self]⟩
    · exact ⟨_, hc', by simp only [hset hx.1, hset hx.2, Bool.and_self]⟩

end FloppyGuard.SiteIsolation
