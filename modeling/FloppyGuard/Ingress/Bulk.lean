import FloppyGuard.Ingress.Sanitize

/-! What a bulk request makes of its entries. -/
namespace FloppyGuard.Ingress

variable {existing : List Rule} {clean : List RulePatch} {done : List (RulePatch × ℕ)}
  {e : RulePatch × ℕ} {s : Dedupe}
  {k l m : Targets} {r q : Rule} {patch : RulePatch} {now nextId : ℕ}

/-! Targets. -/

theorem cidrs_nodup {xs : List String} (h : CidrTexts xs) : (xs.map canonicalCidr).Nodup := by
  refine h.nodup.map_on fun x hx y hy he => ?_
  obtain ⟨c, rfl⟩ := h.canonical x hx
  obtain ⟨c', rfl⟩ := h.canonical y hy
  rw [canonicalCidr_render, canonicalCidr_render] at he
  rw [Option.some.inj he]

namespace Targets

/-- Equal sources, destinations and ports, as sets. -/
structure SameSets (k l : Targets) : Prop where
  sources : ∀ c, c ∈ k.sources ↔ c ∈ l.sources
  destinations : ∀ c, c ∈ k.destinations ↔ c ∈ l.destinations
  ports : ∀ p, p ∈ k.ports ↔ p ∈ l.ports

/-- No list names a target twice. -/
structure Distinct (k : Targets) : Prop where
  sources : k.sources.Nodup
  destinations : k.destinations.Nodup
  ports : k.ports.Nodup

theorem same_iff : k.same l = true ↔
    k.sources.Perm l.sources ∧ k.destinations.Perm l.destinations ∧ k.ports.Perm l.ports := by
  simp only [same, Bool.and_eq_true, List.isPerm_iff, and_assoc]

theorem same_refl (k : Targets) : k.same k = true := same_iff.mpr ⟨.refl _, .refl _, .refl _⟩

theorem same_symm (h : k.same l = true) : l.same k = true := by
  obtain ⟨hs, hd, hp⟩ := same_iff.mp h
  exact same_iff.mpr ⟨hs.symm, hd.symm, hp.symm⟩

theorem same_trans (h : k.same l = true) (h' : l.same m = true) : k.same m = true := by
  obtain ⟨hs, hd, hp⟩ := same_iff.mp h
  obtain ⟨hs', hd', hp'⟩ := same_iff.mp h'
  exact same_iff.mpr ⟨hs.trans hs', hd.trans hd', hp.trans hp'⟩

theorem same_iff_sameSets (hk : k.Distinct) (hl : l.Distinct) : k.same l = true ↔ k.SameSets l := by
  rw [same_iff, List.perm_ext_iff_of_nodup hk.sources hl.sources,
    List.perm_ext_iff_of_nodup hk.destinations hl.destinations,
      List.perm_ext_iff_of_nodup hk.ports hl.ports]
  exact ⟨fun h => ⟨h.1, h.2.1, h.2.2⟩, fun h => ⟨h.sources, h.destinations, h.ports⟩⟩

theorem get_eq_some {β : Type} {t : List (Targets × β)} {v : β} (h : get t k = some v) :
    ∃ k', (k', v) ∈ t ∧ k'.same k = true := by
  obtain ⟨⟨k', v'⟩, hfind, rfl⟩ := Option.map_eq_some_iff.mp h
  exact ⟨k', List.mem_of_find?_eq_some hfind, by simpa using List.find?_some hfind⟩

theorem get_eq_none {β : Type} {t : List (Targets × β)} (h : get t k = none) :
    ∀ x ∈ t, ¬ x.1.same k = true :=
  List.find?_eq_none.mp (Option.map_eq_none_iff.mp h)

end Targets

theorem portKey_inj {p q : Port} (hp : PortOk p) (hq : PortOk q) (h : portKey p = portKey q) :
    p = q := by
  obtain ⟨proto, port⟩ := p
  obtain ⟨proto', port'⟩ := q
  have hp := hp.proto
  have hq := hq.proto
  simp only [ingressProtos, List.mem_cons, List.not_mem_nil, or_false] at hp hq
  have htext := congrArg String.toList h
  simp only [portKey, String.toList_append] at htext
  rcases hp with rfl | rfl <;> rcases hq with rfl | rfl <;> simp_all [String.toList_inj]

theorem Stored.distinct (h : Stored r) : r.targetKey.Distinct where
  sources := cidrs_nodup h.sources
  destinations := cidrs_nodup h.destinations
  ports := h.ports.nodup.map_on fun p hp q hq =>
    portKey_inj (h.ports.valid p hp) (h.ports.valid q hq)

theorem distinct_of_sanitized {d : RulePayload} (h : sanitizeIngressRule d false = .ok patch) :
    patch.targetKey.Distinct := (stored_row 0 0 h).distinct

/-! The loop. -/

/-- Some existing rule that may count has the targets. -/
def Has (existing : List Rule) (k : Targets) : Prop := ∃ r ∈ existing, r.targetKey.same k = true

def HasEnabled (existing : List Rule) (k : Targets) : Prop :=
  ∃ r ∈ existing, r.enabled = true ∧ r.targetKey.same k = true

/-- The entries that came to this point, sorted into the three lists. -/
structure Split (existing : List Rule) (done : List (RulePatch × ℕ)) (s : Dedupe) : Prop where
  seen : ∀ x ∈ s.seen, HasEnabled existing x.1 ∨ ∃ e ∈ done, e.1.targetKey.same x.1 = true
  enabled : ∀ r ∈ existing, r.enabled = true → ∃ x ∈ s.seen, x.1.same r.targetKey = true
  named : ∀ e ∈ done, ∃ x ∈ s.seen, x.1.same e.1.targetKey = true
  indices : (s.create.map (·.1) ++ s.reenable.map (·.1) ++ s.skipped.map (·.1)).Perm
    (done.map (·.2))
  created : ∀ c ∈ s.create, (c.2, c.1) ∈ done ∧ ¬ Has existing c.2.targetKey ∧
    done.find? (·.1.targetKey.same c.2.targetKey) = some (c.2, c.1)
  reenabled : ∀ x ∈ s.reenable, ∃ e, (e, x.1) ∈ done ∧ ¬ HasEnabled existing e.targetKey ∧
    ∃ r ∈ existing, r.id = x.2 ∧ r.targetKey.same e.targetKey = true
  served : ∀ e ∈ done, HasEnabled existing e.1.targetKey ∨
    (∃ x ∈ s.reenable, ∃ r ∈ existing, r.id = x.2 ∧ r.targetKey.same e.1.targetKey = true) ∨
    ∃ c ∈ s.create, c.2.targetKey.same e.1.targetKey = true
  createdOnce : s.create.Pairwise fun c c' => ¬ c.2.targetKey.same c'.2.targetKey = true
  reenabledOnce : (s.reenable.map (·.2)).Nodup

/-- The rules that may be switched back on. -/
def disabledByKey (existing : List Rule) : List (Targets × ℕ) :=
  (existing.filter (!·.enabled)).map fun r => (r.targetKey, r.id)

theorem Has.of_same (h : Has existing k) (hkl : k.same l = true) : Has existing l := by
  obtain ⟨r, hr, hk⟩ := h
  exact ⟨r, hr, Targets.same_trans hk hkl⟩

theorem HasEnabled.of_same (h : HasEnabled existing k) (hkl : k.same l = true) :
    HasEnabled existing l := by
  obtain ⟨r, hr, hen, hk⟩ := h
  exact ⟨r, hr, hen, Targets.same_trans hk hkl⟩

/-- Targets that were not seen belong to no enabled rule and to no entry so far. -/
theorem Split.fresh (h : Split existing done s) (hget : Targets.get s.seen k = none) :
    ¬ HasEnabled existing k ∧ ∀ e ∈ done, ¬ e.1.targetKey.same k = true := by
  have hnone := Targets.get_eq_none hget
  constructor
  · rintro ⟨r, hr, hen, hk⟩
    obtain ⟨x, hx, hxr⟩ := h.enabled r hr hen
    exact hnone x hx (Targets.same_trans hxr hk)
  · intro e he hk
    obtain ⟨x, hx, hxe⟩ := h.named e he
    exact hnone x hx (Targets.same_trans hxe hk)

/-- What was sorted stays so when an entry comes. -/
theorem Split.find?_append (h : Split existing done s) (e : RulePatch × ℕ) : ∀ c ∈ s.create,
    (c.2, c.1) ∈ done ++ [e] ∧ ¬ Has existing c.2.targetKey ∧
      (done ++ [e]).find? (·.1.targetKey.same c.2.targetKey) = some (c.2, c.1) := by
  intro c hc
  obtain ⟨hmem, hno, hfirst⟩ := h.created c hc
  exact ⟨List.mem_append_left _ hmem, hno, by rw [List.find?_append, hfirst, Option.some_or]⟩

theorem Split.reenabled_append (h : Split existing done s) (e : RulePatch × ℕ) : ∀ x ∈ s.reenable,
    ∃ e', (e', x.1) ∈ done ++ [e] ∧ ¬ HasEnabled existing e'.targetKey ∧
      ∃ r ∈ existing, r.id = x.2 ∧ r.targetKey.same e'.targetKey = true := by
  intro x hx
  obtain ⟨e', he', h⟩ := h.reenabled x hx
  exact ⟨e', List.mem_append_left _ he', h⟩

theorem Split.seen_push (h : Split existing done s) (v : Option ℕ) :
    ∀ x ∈ s.seen ++ [(e.1.targetKey, v)],
    HasEnabled existing x.1 ∨ ∃ e' ∈ done ++ [e], e'.1.targetKey.same x.1 = true := by
  intro y hy
  rcases List.mem_append.mp hy with hy | hy
  · exact (h.seen y hy).imp_right fun ⟨e', he', hsame⟩ => ⟨e', List.mem_append_left _ he', hsame⟩
  · obtain rfl := List.mem_singleton.mp hy
    exact Or.inr ⟨e, List.mem_append_right _ (List.mem_singleton_self _), Targets.same_refl _⟩

theorem Split.named_push (h : Split existing done s) (v : Option ℕ) : ∀ e' ∈ done ++ [e],
    ∃ x ∈ s.seen ++ [(e.1.targetKey, v)], x.1.same e'.1.targetKey = true := by
  intro e' he'
  rcases List.mem_append.mp he' with he' | he'
  · obtain ⟨x, hx, hxe⟩ := h.named e' he'
    exact ⟨x, List.mem_append_left _ hx, hxe⟩
  · obtain rfl := List.mem_singleton.mp he'
    exact ⟨_, List.mem_append_right _ (List.mem_singleton_self _), Targets.same_refl _⟩

/-- One more index in one of the three lists. -/
theorem perm_append {xs ys zs xs' ys' zs' : List ℕ} (e : RulePatch × ℕ)
    (h : (xs ++ ys ++ zs).Perm (done.map (·.2)))
    (hone : ∀ a, xs'.count a + ys'.count a + zs'.count a = xs.count a + ys.count a + zs.count a +
      [e.2].count a) :
    (xs' ++ ys' ++ zs').Perm ((done ++ [e]).map (·.2)) := by
  rw [List.map_append, List.map_singleton]
  rw [List.perm_iff_count] at h ⊢
  intro a
  have hcount := h a
  simp only [List.count_append] at hcount ⊢
  rw [hone, hcount]

theorem split_skip (h : Split existing done s) {v : Option ℕ}
    (hget : Targets.get s.seen e.1.targetKey = some v) :
    Split existing (done ++ [e]) { s with skipped := s.skipped ++ [(e.2, v)] } := by
  obtain ⟨x, hx, hxe⟩ := Targets.get_eq_some hget
  constructor
  · intro y hy
    exact (h.seen y hy).imp_right fun ⟨e', he', hsame⟩ => ⟨e', List.mem_append_left _ he', hsame⟩
  · exact h.enabled
  · intro e' he'
    rcases List.mem_append.mp he' with he' | he'
    · exact h.named e' he'
    · obtain rfl := List.mem_singleton.mp he'
      exact ⟨_, hx, hxe⟩
  · refine perm_append e h.indices fun a => ?_
    simp only [List.map_append, List.map_cons, List.map_nil, List.count_append]
    omega
  · exact h.find?_append e
  · exact h.reenabled_append e
  · intro e' he'
    rcases List.mem_append.mp he' with he' | he'
    · exact h.served e' he'
    · obtain rfl := List.mem_singleton.mp he'
      -- the entry stands behind the rule or the entry that was seen before it
      rcases h.seen _ hx with hen | ⟨e'', he'', hsame⟩
      · exact Or.inl (hen.of_same hxe)
      · have hee := Targets.same_trans hsame hxe
        rcases h.served e'' he'' with hen | ⟨y, hy, r, hr, hid, hk⟩ | ⟨c, hc, hk⟩
        · exact Or.inl (hen.of_same hee)
        · exact Or.inr (Or.inl ⟨y, hy, r, hr, hid, Targets.same_trans hk hee⟩)
        · exact Or.inr (Or.inr ⟨c, hc, Targets.same_trans hk hee⟩)
  · exact h.createdOnce
  · exact h.reenabledOnce

theorem split_reenable (hids : (existing.map (·.id)).Nodup) (h : Split existing done s)
    (hget : Targets.get s.seen e.1.targetKey = none) (hr : r ∈ existing)
    (hk : r.targetKey.same e.1.targetKey = true) :
    Split existing (done ++ [e])
      { s with
        reenable := s.reenable ++ [(e.2, r.id)],
        seen := s.seen ++ [(e.1.targetKey, some r.id)] } := by
  obtain ⟨hno, hnew⟩ := h.fresh hget
  constructor
  · exact h.seen_push _
  · exact fun q hq hen => (h.enabled q hq hen).imp fun _ hx => ⟨List.mem_append_left _ hx.1, hx.2⟩
  · exact h.named_push _
  · refine perm_append e h.indices fun a => ?_
    simp only [List.map_append, List.map_cons, List.map_nil, List.count_append]
    omega
  · exact h.find?_append e
  · intro x hx
    rcases List.mem_append.mp hx with hx | hx
    · exact h.reenabled_append e x hx
    · obtain rfl := List.mem_singleton.mp hx
      exact ⟨e.1, List.mem_append_right _ (List.mem_singleton_self _), hno, r, hr, rfl, hk⟩
  · intro e' he'
    rcases List.mem_append.mp he' with he' | he'
    · rcases h.served e' he' with hen | ⟨y, hy, hrule⟩ | hc
      · exact Or.inl hen
      · exact Or.inr (Or.inl ⟨y, List.mem_append_left _ hy, hrule⟩)
      · exact Or.inr (Or.inr hc)
    · obtain rfl := List.mem_singleton.mp he'
      exact Or.inr (Or.inl ⟨_, List.mem_append_right _ (List.mem_singleton_self _), r, hr, rfl, hk⟩)
  · exact h.createdOnce
  · rw [List.map_append, List.map_singleton]
    refine h.reenabledOnce.append (List.nodup_singleton _) ?_
    rintro id hid hsingle
    obtain rfl : id = r.id := List.mem_singleton.mp hsingle
    obtain ⟨x, hx, hxid⟩ := List.mem_map.mp hid
    obtain ⟨e', he', -, q, hq, hqid, hqk⟩ := h.reenabled x hx
    obtain rfl : q = r := List.inj_on_of_nodup_map hids hq hr (hqid.trans hxid)
    exact hnew _ he' (Targets.same_trans (Targets.same_symm hqk) hk)

theorem split_create (h : Split existing done s) (hget : Targets.get s.seen e.1.targetKey = none)
    (hnone : ¬ Has existing e.1.targetKey) :
    Split existing (done ++ [e])
      { s with create := s.create ++ [(e.2, e.1)], seen := s.seen ++ [(e.1.targetKey, none)] } := by
  obtain ⟨hno, hnew⟩ := h.fresh hget
  constructor
  · exact h.seen_push _
  · exact fun q hq hen => (h.enabled q hq hen).imp fun _ hx => ⟨List.mem_append_left _ hx.1, hx.2⟩
  · exact h.named_push _
  · refine perm_append e h.indices fun a => ?_
    simp only [List.map_append, List.map_cons, List.map_nil, List.count_append]
    omega
  · intro c hc
    rcases List.mem_append.mp hc with hc | hc
    · exact h.find?_append e c hc
    · obtain rfl := List.mem_singleton.mp hc
      refine ⟨List.mem_append_right _ (List.mem_singleton_self _), hnone, ?_⟩
      rw [List.find?_append, List.find?_eq_none.mpr hnew, Option.none_or]
      exact List.find?_cons_of_pos (Targets.same_refl _)
  · exact h.reenabled_append e
  · intro e' he'
    rcases List.mem_append.mp he' with he' | he'
    · rcases h.served e' he' with hen | hx | ⟨c, hc, hk⟩
      · exact Or.inl hen
      · exact Or.inr (Or.inl hx)
      · exact Or.inr (Or.inr ⟨c, List.mem_append_left _ hc, hk⟩)
    · obtain rfl := List.mem_singleton.mp he'
      exact Or.inr
        (Or.inr ⟨_, List.mem_append_right _ (List.mem_singleton_self _), Targets.same_refl _⟩)
  · refine List.pairwise_append.mpr ⟨h.createdOnce, List.pairwise_singleton _ _, fun c hc c' hc' =>
      ?_⟩
    obtain rfl := List.mem_singleton.mp hc'
    exact hnew _ (h.created c hc).1
  · exact h.reenabledOnce

theorem split_entry (hids : (existing.map (·.id)).Nodup) (h : Split existing done s)
    (e : RulePatch × ℕ) :
    Split existing (done ++ [e]) (Dedupe.entry (disabledByKey existing) s e) := by
  unfold Dedupe.entry
  dsimp only
  split
  · next ruleId hget => exact split_skip h hget
  · next hget =>
    split
    · next ruleId hdis =>
      obtain ⟨x, hx, hk⟩ := Targets.get_eq_some hdis
      obtain ⟨r, hr, he⟩ := List.mem_map.mp hx
      obtain ⟨rfl, rfl⟩ := Prod.mk.inj he
      exact split_reenable hids h hget (List.mem_filter.mp hr).1 hk
    · next hdis =>
      refine split_create h hget ?_
      rintro ⟨r, hr, hk⟩
      cases hen : r.enabled with
      | true => exact (h.fresh hget).1 ⟨r, hr, hen, hk⟩
      | false =>
        exact Targets.get_eq_none hdis (r.targetKey, r.id)
          (List.mem_map_of_mem (List.mem_filter.mpr ⟨hr, by simp [hen]⟩)) hk

theorem split_foldl (hids : (existing.map (·.id)).Nodup) (h : Split existing done s)
    (es : List (RulePatch × ℕ)) :
    Split existing (done ++ es) (es.foldl (Dedupe.entry (disabledByKey existing)) s) := by
  induction es generalizing done s with
  | nil => rwa [List.append_nil]
  | cons e es ih =>
    have hrest := ih (split_entry hids h e)
    rwa [List.append_assoc, List.singleton_append] at hrest

theorem split_bulkDedupe (hids : (existing.map (·.id)).Nodup) (clean : List RulePatch) :
    Split existing clean.zipIdx (bulkDedupe existing clean) := by
  have hstart : Split existing [] ⟨(existing.filter (·.enabled)).map fun r =>
      (r.targetKey, some r.id), [], [], []⟩ := by
    constructor
    · intro x hx
      obtain ⟨r, hr, rfl⟩ := List.mem_map.mp hx
      obtain ⟨hr, hen⟩ := List.mem_filter.mp hr
      exact Or.inl ⟨r, hr, hen, Targets.same_refl _⟩
    · intro r hr hen
      exact ⟨_, List.mem_map_of_mem (List.mem_filter.mpr ⟨hr, hen⟩), Targets.same_refl _⟩
    · nofun
    · exact .refl _
    · nofun
    · nofun
    · nofun
    · exact .nil
    · exact .nil
  exact split_foldl hids hstart clean.zipIdx

/-! What the request leaves behind. -/

/-- The rules of the agent after creating and switching back on. -/
def bulkAfter (existing : List Rule) (split : Dedupe) (now nextId : ℕ) : List Rule :=
  (existing.map fun r =>
    if r.id ∈ split.reenable.map (·.2) then { r with enabled := true, armedOn := some now }
    else r) ++
    split.create.zipIdx.map fun c => c.1.2.row (nextId + c.2) now

def Rule.Serves (r : Rule) (e : RulePatch) : Prop :=
  r.enabled = true ∧ r.targetKey.SameSets e.targetKey

/-- The first entry with these targets asks for a rule that is switched on. -/
def SentOn (clean : List RulePatch) (e : RulePatch) : Prop :=
  ∃ first, clean.find? (·.targetKey.same e.targetKey) = some first ∧ first.enabled.getD true = true

/-- No entry is lost and no target set doubled. -/
structure Lossless (existing : List Rule) (clean : List RulePatch) (split : Dedupe)
    (after : List Rule) : Prop where
  indices : (split.create.map (·.1) ++ split.reenable.map (·.1) ++ split.skipped.map (·.1)).Perm
    (List.range clean.length)
  kept : ∀ e ∈ clean, ∃ r ∈ after, r.targetKey.SameSets e.targetKey
  served : ∀ e ∈ clean,
    (∃ r ∈ existing, r.targetKey.Distinct ∧ r.targetKey.SameSets e.targetKey) ∨ SentOn clean e →
      ∃ r ∈ after, r.Serves e
  apart : split.create.Pairwise fun c c' => ¬ c.2.targetKey.SameSets c'.2.targetKey
  new : ∀ c ∈ split.create, ∀ r ∈ existing, r.targetKey.Distinct →
    ¬ r.targetKey.SameSets c.2.targetKey
  once : (split.reenable.map (·.2)).Nodup
  needed : ∀ x ∈ split.reenable, ∃ e ∈ clean, clean[x.1]? = some e ∧
    (∃ r ∈ existing, r.id = x.2 ∧ r.targetKey.SameSets e.targetKey) ∧
      ∀ r ∈ existing, r.targetKey.Distinct → ¬ r.Serves e

theorem Targets.SameSets.of_same (h : k.same l = true) : k.SameSets l := by
  obtain ⟨hs, hd, hp⟩ := Targets.same_iff.mp h
  exact ⟨fun _ => hs.mem_iff, fun _ => hd.mem_iff, fun _ => hp.mem_iff⟩

theorem find?_zipIdx (p : RulePatch → Bool) {i : ℕ}
    (h : clean.zipIdx.find? (p ·.1) = some (patch, i)) :
    clean.find? p = some patch := by
  have hmap : (clean.zipIdx.map (·.1)).find? p = clean.find? p := by rw [List.zipIdx_map_fst]
  rw [← hmap, List.find?_map]
  exact congrArg (Option.map (·.1)) h

theorem mem_bulkAfter_of_mem (s : Dedupe) (now nextId : ℕ) (hr : r ∈ existing) :
    ∃ q ∈ bulkAfter existing s now nextId, q.targetKey = r.targetKey ∧
    (r.enabled = true ∨ r.id ∈ s.reenable.map (·.2) → q.enabled = true) := by
  refine ⟨_, List.mem_append_left _ (List.mem_map_of_mem hr), ?_, ?_⟩
  · split <;> rfl
  · split
    · exact fun _ => rfl
    · next hno => exact fun h => h.resolve_right hno

theorem mem_bulkAfter_of_create {c : ℕ × RulePatch} (hc : c ∈ s.create) :
    ∃ q ∈ bulkAfter existing s now nextId,
    q.targetKey = c.2.targetKey ∧ q.enabled = c.2.enabled.getD true := by
  rw [← List.zipIdx_map_fst 0 s.create] at hc
  obtain ⟨x, hx, rfl⟩ := List.mem_map.mp hc
  exact ⟨_, List.mem_append_right _ (List.mem_map_of_mem hx), rfl, rfl⟩

/-- Every entry has a rule, and one that is switched on unless its targets were first asked for
switched off. -/
theorem lossless (hids : (existing.map (·.id)).Nodup)
    (hclean : ∀ e ∈ clean, ∃ d, sanitizeIngressRule d false = .ok e)
    (now nextId : ℕ) :
    Lossless existing clean (bulkDedupe existing clean)
      (bulkAfter existing (bulkDedupe existing clean) now nextId) := by
  have h := split_bulkDedupe hids clean
  generalize bulkDedupe existing clean = s at h ⊢
  have hdistinct : ∀ e ∈ clean, e.targetKey.Distinct := by
    intro e he
    obtain ⟨d, hd⟩ := hclean e he
    exact distinct_of_sanitized hd
  have hmem {c : ℕ × RulePatch} (hc : c ∈ s.create) : c.2 ∈ clean :=
    List.fst_mem_of_mem_zipIdx (h.created c hc).1
  have hzip {e : RulePatch} (he : e ∈ clean) : ∃ i, (e, i) ∈ clean.zipIdx := by
    rw [← List.zipIdx_map_fst 0 clean] at he
    obtain ⟨x, hx, rfl⟩ := List.mem_map.mp he
    exact ⟨x.2, hx⟩
  -- an enabled rule, or one that is switched on, serves the entry
  have hrule {e : RulePatch} (hk : HasEnabled existing e.targetKey ∨
      ∃ x ∈ s.reenable, ∃ r ∈ existing, r.id = x.2 ∧ r.targetKey.same e.targetKey = true) :
      ∃ r ∈ bulkAfter existing s now nextId, r.Serves e := by
    rcases hk with ⟨r, hr, hen, hk⟩ | ⟨x, hx, r, hr, hid, hk⟩
    · obtain ⟨q, hq, hkey, hon⟩ := mem_bulkAfter_of_mem s now nextId hr
      exact ⟨q, hq, hon (Or.inl hen), hkey ▸ .of_same hk⟩
    · obtain ⟨q, hq, hkey, hon⟩ := mem_bulkAfter_of_mem s now nextId hr
      exact ⟨q, hq, hon (Or.inr (hid ▸ List.mem_map_of_mem hx)), hkey ▸ .of_same hk⟩
  constructor
  · have := h.indices
    rwa [List.zipIdx_map_snd, ← List.range_eq_range'] at this
  · intro e he
    obtain ⟨i, hi⟩ := hzip he
    rcases h.served _ hi with hen | hre | ⟨c, hc, hk⟩
    · obtain ⟨q, hq, -, hk⟩ := hrule (Or.inl hen)
      exact ⟨q, hq, hk⟩
    · obtain ⟨q, hq, -, hk⟩ := hrule (Or.inr hre)
      exact ⟨q, hq, hk⟩
    · obtain ⟨q, hq, hkey, -⟩ := mem_bulkAfter_of_create hc
      exact ⟨q, hq, hkey ▸ .of_same hk⟩
  · intro e he hcase
    obtain ⟨i, hi⟩ := hzip he
    rcases h.served _ hi with hen | hre | ⟨c, hc, hk⟩
    · exact hrule (Or.inl hen)
    · exact hrule (Or.inr hre)
    · obtain ⟨-, hno, hfirst⟩ := h.created c hc
      rcases hcase with ⟨r, hr, hd, hsame⟩ | ⟨first, hfind, hon⟩
      · have hre := (Targets.same_iff_sameSets hd (hdistinct e he)).mpr hsame
        exact absurd ⟨r, hr, Targets.same_trans hre (Targets.same_symm hk)⟩ hno
      · -- the created entry is the first with these targets
        have hpred : (fun e' : RulePatch => e'.targetKey.same c.2.targetKey) = fun e' =>
            e'.targetKey.same e.targetKey := by
          funext e'
          rw [Bool.eq_iff_iff]
          exact ⟨fun h' => Targets.same_trans h' hk, fun h' =>
            Targets.same_trans h' (Targets.same_symm hk)⟩
        have hc' := find?_zipIdx (·.targetKey.same c.2.targetKey) hfirst
        rw [hpred, hfind] at hc'
        obtain ⟨q, hq, hkey, hen⟩ := mem_bulkAfter_of_create hc
        exact ⟨q, hq, hen.trans (Option.some.inj hc' ▸ hon), hkey ▸ .of_same hk⟩
  · refine h.createdOnce.imp_of_mem fun {c c'} hc hc' hne hsame => hne ?_
    exact (Targets.same_iff_sameSets (hdistinct _ (hmem hc)) (hdistinct _ (hmem hc'))).mpr hsame
  · intro c hc r hr hd hsame
    exact (h.created c hc).2.1
      ⟨r, hr, (Targets.same_iff_sameSets hd (hdistinct _ (hmem hc))).mpr hsame⟩
  · exact h.reenabledOnce
  · intro x hx
    obtain ⟨e, he, hno, r, hr, hid, hk⟩ := h.reenabled x hx
    have hin := List.fst_mem_of_mem_zipIdx he
    refine ⟨e, hin, (List.mem_zipIdx_iff_getElem?.mp he), ⟨r, hr, hid, .of_same hk⟩,
      fun q hq hd hserves => hno ?_⟩
    exact ⟨q, hq, hserves.1, (Targets.same_iff_sameSets hd (hdistinct e hin)).mpr hserves.2⟩

/-- A request for one Freigabe of the hub host. -/
def hubPayload (on : Bool) : RulePayload where
  name := .value "hub"
  sources := .value (.array ["10.10.0.1/32"])
  destinations := .undefined
  ports := .undefined
  enabled := .value (.bool on)
  note := .undefined

def hubPatch (on : Bool) : RulePatch :=
  ⟨some "hub", some ["10.10.0.1/32"], some [], some [], some on, some none⟩

theorem lossless_hub : Lossless [(hubPatch false).row 7 0] [hubPatch true]
    (bulkDedupe [(hubPatch false).row 7 0] [hubPatch true])
    (bulkAfter [(hubPatch false).row 7 0] (bulkDedupe [(hubPatch false).row 7 0] [hubPatch true]) 5
      8) := by
  refine lossless (by decide) (fun e he => ⟨hubPayload true, ?_⟩) 5 8
  obtain rfl := List.mem_singleton.mp he
  rfl

/-- An entry that is sent switched off has no rule that is switched on. -/
theorem not_served_hub : (∃ d, sanitizeIngressRule d false = .ok (hubPatch false)) ∧
    ¬ ∃ r ∈ bulkAfter [] (bulkDedupe [] [hubPatch false]) 5 8, r.Serves (hubPatch false) := by
  refine ⟨⟨hubPayload false, rfl⟩, ?_⟩
  rintro ⟨r, hr, hen, -⟩
  have hoff : ∀ r ∈ bulkAfter [] (bulkDedupe [] [hubPatch false]) 5 8, r.enabled = false := by
    decide
  rw [hoff r hr] at hen
  cases hen

end FloppyGuard.Ingress
