import FloppyGuard.SiteIsolation.ScriptText

/-! No name, id or network of a link breaks out of the script. -/
namespace FloppyGuard.SiteIsolation

variable {rt : Runtime} {pairs : List Pair} {links links' : List Link} {plan : Plan} {p : Pair}
  {id : String} {l : Link}
  {sc : Script} {A : Site}

/-! Comments. -/

/-- Text that can stand between quotes on one line. -/
def CommentText (c : String) : Prop :=
  c ≠ "" ∧ ∀ d ∈ c.toList, d ≠ '"' ∧ d ≠ '\\' ∧ Text.isLineEnd d = false

theorem isCommentChar_of_mem {value : String} {max : ℕ} {d : Char}
    (h : d ∈ (sanitizeCommentText rt value max).toList) :
    isCommentChar d = true ∨ d = Text.replacement := by
  unfold sanitizeCommentText orElse at h
  dsimp only at h
  split at h
  · have hsite : ∀ d ∈ "site".toList, isCommentChar d = true := by decide
    exact .inl (hsite d h)
  · rw [String.toList_ofList] at h
    refine (Text.mem_slice (Text.mem_of_mem_trim h)).imp_left fun hd => ?_
    obtain ⟨c, -, rfl⟩ := List.mem_map.mp (Text.mem_of_mem_collapse (Text.mem_of_mem_trim hd))
    split
    · assumption
    · decide

theorem quotable {d : Char} (h : isCommentChar d = true) :
    d ≠ '"' ∧ d ≠ '\\' ∧ Text.isLineEnd d = false := by
  refine ⟨?_, ?_, ?_⟩
  · rintro rfl
    exact absurd h (by decide)
  · rintro rfl
    exact absurd h (by decide)
  · rw [Bool.eq_false_iff]
    intro hend
    simp only [Text.isLineEnd, Bool.or_eq_true, beq_iff_eq] at hend
    rcases hend with ((hd | hd) | hd) | hd
    · exact absurd ((Char.toNat_inj.mp hd : d = '\n') ▸ h) (by decide)
    · exact absurd ((Char.toNat_inj.mp hd : d = '\r') ▸ h) (by decide)
    · exact absurd ((Char.toNat_inj.mp hd : d = '\u2028') ▸ h) (by decide)
    · exact absurd ((Char.toNat_inj.mp hd : d = '\u2029') ▸ h) (by decide)

theorem commentText (value : String) (max : ℕ) :
    CommentText (sanitizeCommentText rt value max) := by
  refine ⟨?_, fun d hd => ?_⟩
  rotate_left
  · rcases isCommentChar_of_mem hd with h | rfl
    · exact quotable h
    · decide
  unfold sanitizeCommentText orElse
  dsimp only
  split
  · decide
  · assumption

/-! One set a site. -/

theorem nodup_siteFor (h : (plan.sites.map (·.id)).Nodup) :
    ((siteFor rt plan id l).2.sites.map (·.id)).Nodup := by
  unfold siteFor
  split
  · exact h
  · next hnone =>
    rw [List.map_append, List.map_singleton]
    refine h.append (List.nodup_singleton _) ?_
    rintro k hk hid
    obtain rfl : k = id := List.mem_singleton.mp hid
    obtain ⟨t, ht, rfl⟩ := List.mem_map.mp hk
    exact absurd (List.find?_eq_none.mp hnone t ht) (by simp)

theorem nodup_planPair (hp : Planned rt links plan) (h : (plan.sites.map (·.id)).Nodup) :
    ((planPair rt links plan p).sites.map (·.id)).Nodup := by
  have ho := planPair_outcome hp p
  generalize planPair rt links plan p = r at ho ⊢
  cases ho with
  | skipped => exact h
  | noNetworks => exact nodup_siteFor (nodup_siteFor h)
  | enforced => exact nodup_siteFor (nodup_siteFor h)

theorem nodup_foldl (hp : Planned rt links plan) (h : (plan.sites.map (·.id)).Nodup)
    (pairs : List Pair) :
    ((pairs.foldl (planPair rt links) plan).sites.map (·.id)).Nodup := by
  induction pairs generalizing plan with
  | nil => exact h
  | cons p pairs ih => exact ih (planned_planPair hp p) (nodup_planPair hp h)

theorem nodup_sites (rt : Runtime) (pairs : List Pair) (links : List Link) :
    ((planSiteIsolation rt pairs links).sites.map (·.id)).Nodup :=
  (nodup_foldl (Planned.empty rt links) List.nodup_nil pairs).sublist (List.filter_sublist.map _)

theorem site_eq_nets (hA : A ∈ (planSiteIsolation rt pairs links).sites) :
    A.nets = siteNets links A.id := by
  obtain ⟨l, hl, he⟩ := (planned_plan rt pairs links).sites A hA
  obtain ⟨l', hl', -, hnets⟩ := exists_link_of_siteNets (separating_of_site hA).siteNets_ne_nil
  obtain rfl := Option.some.inj (hl.symm.trans hl')
  rw [hnets, he]
  rfl

theorem exists_site (rt : Runtime) (h : Separating links pairs id) :
    ∃ A ∈ (planSiteIsolation rt pairs links).sites, A.id = id := by
  obtain ⟨p, hp, henf, hid⟩ := h
  have hplanned : p ∈ (planSiteIsolation rt pairs links).pairs := mem_plan_pairs.mpr ⟨hp, henf⟩
  obtain ⟨A, B, hA, hB, -⟩ := plan_sites hplanned
  rcases hid with rfl | rfl
  · exact ⟨A, List.mem_of_find?_eq_some hA, by simpa using List.find?_some hA⟩
  · exact ⟨B, List.mem_of_find?_eq_some hB, by simpa using List.find?_some hB⟩

/-! The lines of the text. -/

def prologue : List String :=
  ["#!/usr/sbin/nft -f",
    "# Managed by FloppyGuard - Standorte untereinander (site isolation). Do not edit:",
    "# the backend replaces this table atomically on every change.",
    "table inet floppyguard_sites \x7b\x7d", "delete table inet floppyguard_sites",
    "table inet floppyguard_sites \x7b"]

def chainHead : List String :=
  ["\tchain forward \x7b", "\t\ttype filter hook forward priority filter - 10; policy accept;"]

/-- The ends of the chain and of the table, and the last line break. -/
def epilogue : List String := ["\t\x7d", "\x7d", ""]

/-- Set order of the script. -/
def orderedSites (rt : Runtime) (pairs : List Pair) (links : List Link) : List Site :=
  (planSiteIsolation rt pairs links).sites.insertionSort fun x y =>
    Text.le x.set.toList y.set.toList

/-- Both directions of one pair. -/
def pairSites (plan : Plan) (p : Pair) : List (Site × Site) :=
  match plan.site? p.a, plan.site? p.b with
  | some A, some B => [(A, B), (B, A)]
  | _, _ => []

def ruleSites (rt : Runtime) (pairs : List Pair) (links : List Link) : List (Site × Site) :=
  (planSiteIsolation rt pairs links).pairs.flatMap (pairSites (planSiteIsolation rt pairs links))

theorem pairLines_eq (plan : Plan) (p : Pair) :
    pairLines rt plan p = (pairSites plan p).map fun r => dropLine rt r.1 r.2 := by
  unfold pairLines pairSites
  cases plan.site? p.a with
  | none => rfl
  | some A => cases plan.site? p.b <;> rfl

theorem mem_ruleSites {r : Site × Site} (h : r ∈ ruleSites rt pairs links) :
    r.1 ∈ (planSiteIsolation rt pairs links).sites ∧
    r.2 ∈ (planSiteIsolation rt pairs links).sites := by
  obtain ⟨p, -, hr⟩ := List.mem_flatMap.mp h
  unfold pairSites at hr
  split at hr
  · next A B hA hB =>
    have hA := List.mem_of_find?_eq_some hA
    have hB := List.mem_of_find?_eq_some hB
    rcases List.mem_pair.mp hr with rfl | rfl
    · exact ⟨hA, hB⟩
    · exact ⟨hB, hA⟩
  · cases hr

theorem built_lines (h : buildSiteIsolationNft rt pairs links = .ok sc) :
    sc.flatMap NftLine.render =
    prologue ++ (orderedSites rt pairs links).flatMap (fun s => (setLine rt s).render) ++
      chainHead ++
      (ruleSites rt pairs links).flatMap (fun r => (dropLine rt r.1 r.2).render) ++ epilogue := by
  unfold buildSiteIsolationNft at h
  dsimp only at h
  split at h
  · cases h
  · obtain rfl := Except.ok.inj h
    simp only [pairLines_eq, List.flatMap_append, List.flatMap_map, List.flatMap_assoc, ruleSites]
    rfl

theorem text_lines (hx : HexDigests rt) (h : buildSiteIsolationNft rt pairs links = .ok sc) :
    sc.text.toList.splitOn '\n' = (sc.flatMap NftLine.render).map String.toList := by
  rw [Script.text, String.toList_intercalate]
  apply List.splitOn_intercalate
  · intro r hr
    obtain ⟨text, htext, rfl⟩ := List.mem_map.mp hr
    obtain ⟨ln, hln, hr⟩ := List.mem_flatMap.mp htext
    exact newline_not_mem_render (built_plain hx h ln hln) text hr
  · rw [built_lines h]
    simp [prologue]

/-! The order of the links. -/

theorem byId_perm (hp : links'.Perm links) (hid : (links.map (·.id)).Nodup) (id : String) :
    byId links' id = byId links id := by
  cases h : byId links id with
  | none =>
    refine byId_eq_none fun k hk he => ?_
    have hk : k ∈ links := hp.mem_iff.mp hk
    rw [byId, List.find?_eq_none] at h
    exact h k (by simpa using hk) (by simpa using he)
  | some l =>
    have hl : l ∈ links := by simpa using List.mem_of_find?_eq_some h
    have hlid : l.id = id := by simpa using List.find?_some h
    refine byId_eq_some (hp.mem_iff.mpr hl) hlid fun k hk he => ?_
    exact List.inj_on_of_nodup_map hid (hp.mem_iff.mp hk) hl (he.trans hlid.symm)

/-- The links are only looked up by their ids. -/
theorem plan_congr (h : ∀ id, byId links' id = byId links id) :
    planSiteIsolation rt pairs links' = planSiteIsolation rt pairs links := by
  have hpair : planPair rt links' = planPair rt links := by
    funext plan p
    simp only [planPair, h]
  rw [planSiteIsolation, planSiteIsolation, hpair]

theorem built_perm (hp : links'.Perm links) (hid : (links.map (·.id)).Nodup) :
    buildSiteIsolationNft rt pairs links' = buildSiteIsolationNft rt pairs links := by
  rw [buildSiteIsolationNft, buildSiteIsolationNft, plan_congr (byId_perm hp hid)]

/-- The text of a script is the fixed frame around set definitions and rules of its own. -/
structure Contained (rt : Runtime) (pairs : List Pair) (links : List Link) (sc : Script)
    (sets : List Site)
    (rules : List (Site × Site)) : Prop where
  lines : sc.text.toList.splitOn '\n' =
    (prologue ++ sets.flatMap (fun s => (setLine rt s).render) ++ chainHead ++
      rules.flatMap (fun r => (dropLine rt r.1 r.2).render) ++ epilogue).map String.toList
  once : (sets.map (·.id)).Nodup
  separating : ∀ id, id ∈ sets.map (·.id) ↔ Separating links pairs id
  named : ∀ s ∈ sets, s.set = siteSetName rt s.id
  elements : ∀ s ∈ sets, s.nets = siteNets links s.id ∧ s.nets ≠ [] ∧ ∀ n ∈ s.nets,
    canonicalCidr n.render = some n
  defined : ∀ r ∈ rules, r.1 ∈ sets ∧ r.2 ∈ sets
  setComments : ∀ s ∈ sets, ∃ c, setLine rt s = .set s.set c s.nets ∧ CommentText c
  ruleComments : ∀ r ∈ rules, ∃ c, dropLine rt r.1 r.2 = .drop r.1.set r.2.set c ∧ CommentText c

theorem built_contained (hx : HexDigests rt) (h : buildSiteIsolationNft rt pairs links = .ok sc) :
    Contained rt pairs links sc (orderedSites rt pairs links) (ruleSites rt pairs links) := by
  have hmem {A : Site} : A ∈ orderedSites rt pairs links ↔
      A ∈ (planSiteIsolation rt pairs links).sites := by
    simp only [orderedSites, List.mem_insertionSort]
  constructor
  · rw [text_lines hx h, built_lines h]
  · exact ((List.perm_insertionSort _ _).map _).nodup_iff.mpr (nodup_sites rt pairs links)
  · intro id
    rw [List.mem_map]
    constructor
    · rintro ⟨A, hA, rfl⟩
      exact separating_of_site (hmem.mp hA)
    · intro hid
      obtain ⟨A, hA, rfl⟩ := exists_site rt hid
      exact ⟨A, hmem.mpr hA, rfl⟩
  · exact fun A hA => site_set (hmem.mp hA)
  · intro A hA
    have hnets := site_eq_nets (hmem.mp hA)
    exact ⟨hnets, hnets ▸ (separating_of_site (hmem.mp hA)).siteNets_ne_nil, fun n _ =>
      canonicalCidr_render n⟩
  · exact fun r hr => (mem_ruleSites hr).imp hmem.mpr hmem.mpr
  · exact fun A _ => ⟨_, rfl, commentText _ _⟩
  · exact fun r _ => ⟨_, rfl, commentText _ _⟩

/-- Whatever the links are called, the script stays inside its table; with distinct ids their order
does not matter. -/
theorem script_contained (hx : HexDigests rt) (pairs : List Pair) (links : List Link) :
    ∃ sc, buildSiteIsolationNft rt pairs links = .ok sc ∧
    (∃ sets rules, Contained rt pairs links sc sets rules) ∧
      ∀ links' sc', links'.Perm links → (links.map (·.id)).Nodup →
      buildSiteIsolationNft rt pairs links' = .ok sc' →
        ∀ x y, drops sc' x y = drops sc x y := by
  obtain ⟨sc, hsc⟩ := buildSiteIsolationNft_ok rt pairs links
  refine ⟨sc, hsc, ⟨_, _, built_contained hx hsc⟩, fun links' sc' hp hid hsc' x y => ?_⟩
  rw [built_perm hp hid, hsc] at hsc'
  rw [Except.ok.inj hsc']

/-- The digests of the two ids. -/
def hexRuntime : Runtime where
  sha256Hex id :=
    if id = "wg0:a" then "364b994441cedd4f264d69f8b4c806219f1abef90a74d3d024a938a0e4cc1200"
    else "c891610342d0700d7e0ad81a7c5cb181cc168f48cb1951b902a5a7b3e1ca6eda"
  normalizeNfkd s := s

def quotedLinks : List Link :=
  [⟨"wg0:a", "A\"\n\x7d\nflush ruleset\n", some .siteToSite, ["10.1.0.7/16"], ["10.10.0.2"], true,
    true⟩,
    ⟨"wg0:b", "\\\u2028ä", some .siteToSite, ["10.2.0.0/16", "10.2.0.0/24"], ["10.10.0.3"], true,
      true⟩]

theorem script_contained_quoted :
    ∃ sc, buildSiteIsolationNft hexRuntime [⟨"wg0:a", "wg0:b"⟩] quotedLinks = .ok sc ∧
      (∃ sets rules, Contained hexRuntime [⟨"wg0:a", "wg0:b"⟩] quotedLinks sc sets rules) ∧
      ∀ links' sc', links'.Perm quotedLinks → (quotedLinks.map (·.id)).Nodup →
        buildSiteIsolationNft hexRuntime [⟨"wg0:a", "wg0:b"⟩] links' = .ok sc' →
        ∀ x y, drops sc' x y = drops sc x y := by
  refine script_contained (fun id => ?_) _ _
  unfold hexRuntime
  dsimp only
  split <;> decide

end FloppyGuard.SiteIsolation
