import FloppyGuard.Ingress.Store

/-! `pruneCandidates` of `agent-ingress-catalog.js`: the rules offered to be switched off. -/
namespace FloppyGuard.Ingress

/-- A timestamp column: a whole number, a text or a date object with its milliseconds. -/
inductive DbTime
  | absent
  | number (n : ℤ)
  | text (s : String)
  | date (ms : ℤ)

/-- `rowToRule` with the dates. -/
structure DatedRule extends Rule where
  lastHitAt : DbTime
  createdOn : DbTime

/-- An address that a host, a stream or a flow of the hub forwards to. -/
structure Upstream where
  host : String
  port : Option ℕ
  proto : Option String
  source : Option String

/-- When the rule was last switched on, or its targets changed. -/
def DatedRule.armedTime (r : DatedRule) : DbTime :=
  (r.armedOn.map fun n => DbTime.number n).getD .absent

def staleRuleSeconds : ℤ := 30 * 24 * 3600

/-- Seconds, or milliseconds when the number is too large for seconds. -/
def unixNumber (n : ℤ) : Option ℤ :=
  if n ≤ 0 then none else if n > 1000000000000 then some (n / 1000) else some n

/-- `toUnixSeconds`. The numbers are those a double holds exactly. -/
def toUnixSeconds (dateParse : String → Option ℤ) : DbTime → Option ℤ
  | .absent => none
  | .number n => unixNumber n
  | .date ms => some (ms / 1000)
  | .text s =>
    match Text.number s.length s.toList with
    | some n => unixNumber n
    | none => if s = "" then none else (dateParse s).map (· / 1000)

/-- `isHubSourced`: every source lies inside an address of the hub. -/
def isHubSourced (rule : Rule) (hubSrcs : List String) : Bool :=
  !rule.sources.isEmpty && rule.sources.all fun s => hubSrcs.any (cidrContains · s)

namespace Upstream

/-- An empty source counts as none. -/
def ownSource (u : Upstream) : Option String := u.source.filter (· ≠ "")

def flow (u : Upstream) (src : String) : Flow :=
  ⟨src, u.host, u.port, orElse (u.proto.getD "") "tcp"⟩

end Upstream

def upstreamCovered (u : Upstream) (rules : List Rule) (hubHosts : List String) : Bool :=
  let srcs := match u.ownSource with
    | some s => [s]
    | none => hubHosts
  srcs.any fun src => rules.any (ruleCovers · (u.flow src))

/-- An upstream is reached through the rule from an address of the hub or its own source. -/
def needed (behind : List Upstream) (hubSrcs : List String) (r : Rule) : Bool :=
  behind.any fun u => (hubSrcs ++ u.ownSource.toList).any fun h => ruleCovers r (u.flow h)

section Candidates
variable (dateParse : String → Option ℤ) (behind : List Upstream) (hubSrcs : List String) (now : ℤ)

/-- Newest reference time of a rule. -/
def ruleReferenceTime (r : DatedRule) : Option ℤ :=
  ([r.lastHitAt, r.createdOn, r.armedTime].filterMap (toUnixSeconds dateParse)).max?

def candidate (r : DatedRule) : Option (DatedRule × ℤ) :=
  if !isHubSourced r.toRule hubSrcs then none
  else match ruleReferenceTime dateParse r with
    | none => none
    | some ref =>
      if now - ref ≤ staleRuleSeconds then none
      else match toUnixSeconds dateParse r.armedTime <|> toUnixSeconds dateParse r.createdOn with
        | none => none
        | some armed =>
          if now - armed ≤ staleRuleSeconds then none
          else if needed behind hubSrcs r.toRule then none else some (r, ref)

/-- The place of the first of the newest. -/
def newest (out : List (DatedRule × ℤ)) : ℕ :=
  out.zipIdx.foldl (fun newest c => if out[newest]?.any (·.2 < c.1.2) then c.2 else newest) 0

structure PruneCandidate where
  id : ℕ
  name : String
  lastHitAt : DbTime

def PruneCandidate.reason (_ : PruneCandidate) : String := "no-hits-30d"

/-- `pruneCandidates` -/
def pruneCandidates (rules : List DatedRule) (mode : IngressMode) (linkFound : Bool)
    (appliedState : Option String) :
    List PruneCandidate :=
  if !linkFound || appliedState ≠ some "applied" then []
  else
    let enabled := rules.filter (·.enabled)
    let out := enabled.filterMap (candidate dateParse behind hubSrcs now)
    let out := if mode = .restricted ∧ out ≠ [] ∧ out.length = enabled.length then
      out.eraseIdx (newest out) else out
    out.map fun c => ⟨c.1.id, c.1.name, c.1.lastHitAt⟩

end Candidates

/-- The rules after those with the ids are switched off. -/
def switchOff (ids : List ℕ) (rules : List Rule) : List Rule :=
  rules.map fun r => if r.id ∈ ids then { r with enabled := false } else r

variable {dateParse : String → Option ℤ} {behind : List Upstream} {hubSrcs hubHosts : List String}
  {now : ℤ}
  {r : DatedRule} {rules : List DatedRule} {mode : IngressMode} {linkFound : Bool}
    {appliedState : Option String}
  {u : Upstream} {ids : List ℕ} {c : DatedRule × ℤ} {out : List (DatedRule × ℤ)}

theorem candidate_eq_some (h : candidate dateParse behind hubSrcs now r = some c) :
    c.1 = r ∧ needed behind hubSrcs r.toRule = false := by
  unfold candidate at h
  split at h
  · cases h
  · split at h
    · cases h
    · split at h
      · cases h
      · split at h
        · cases h
        · split at h
          · cases h
          · split at h
            · cases h
            · next hneed =>
              obtain rfl := Option.some.inj h
              exact ⟨rfl, Bool.eq_false_iff.mpr hneed⟩

variable (dateParse behind hubSrcs now) in
theorem map_filterMap_candidate (rules : List DatedRule) :
    ((rules.filterMap (candidate dateParse behind hubSrcs now)).map (·.1)).Sublist rules := by
  rw [List.map_filterMap]
  have hsome (r : DatedRule) : ((candidate dateParse behind hubSrcs now r).map (·.1)).getD r =
      r := by
    cases hc : candidate dateParse behind hubSrcs now r with
    | none => rfl
    | some c => exact (candidate_eq_some hc).1
  induction rules with
  | nil => exact .slnil
  | cons r rules ih =>
    rw [List.filterMap_cons]
    have hr := hsome r
    split
    · exact ih.cons r
    · next b hb =>
      rw [hb] at hr
      exact hr ▸ ih.cons_cons b

theorem newest_lt (h : out ≠ []) : newest out < out.length := by
  have hfold (cs : List ((DatedRule × ℤ) × ℕ)) (hcs : ∀ c ∈ cs, c.2 < out.length) (n : ℕ)
    (hn : n < out.length) :
      cs.foldl (fun newest c => if out[newest]?.any (·.2 < c.1.2) then c.2 else newest) n <
        out.length := by
    induction cs generalizing n with
    | nil => exact hn
    | cons c cs ih =>
      refine ih (fun c hc => hcs c (List.mem_cons_of_mem _ hc)) _ ?_
      dsimp only
      split
      · exact hcs c List.mem_cons_self
      · exact hn
  exact hfold _ (fun c hc => List.snd_lt_of_mem_zipIdx hc) 0 (List.length_pos_iff.mpr h)

variable (dateParse behind hubSrcs now mode linkFound appliedState) in
/-- What is offered, as rules: some of the enabled ones, none of them needed; with a restricted mode
not all. -/
theorem pruneCandidates_spec (rules : List DatedRule) : ∃ offered : List DatedRule,
    (pruneCandidates dateParse behind hubSrcs now rules mode linkFound appliedState).map
    (·.id) = offered.map (·.id) ∧
      offered.Sublist (rules.filter (·.enabled)) ∧
      (∀ r ∈ offered, needed behind hubSrcs r.toRule = false) ∧
      (mode = .restricted → rules.filter (·.enabled) ≠ [] →
        offered.length < (rules.filter (·.enabled)).length) := by
  unfold pruneCandidates
  split
  · exact ⟨[], rfl, List.nil_sublist _, nofun, fun _ hne => List.length_pos_iff.mpr hne⟩
  · dsimp only
    have hsub := map_filterMap_candidate dateParse behind hubSrcs now
      (rules.filter (·.enabled))
    have hneed : ∀ c ∈ (rules.filter (·.enabled)).filterMap
      (candidate dateParse behind hubSrcs now),
        needed behind hubSrcs c.1.toRule = false := by
      intro c hc
      obtain ⟨r, -, hr⟩ := List.mem_filterMap.mp hc
      obtain ⟨rfl, hn⟩ := candidate_eq_some hr
      exact hn
    generalize (rules.filter (·.enabled)).filterMap (candidate dateParse behind hubSrcs now) = out
      at hsub hneed ⊢
    have hids (cs : List (DatedRule × ℤ)) :
        (cs.map fun c => (⟨c.1.id, c.1.name, c.1.lastHitAt⟩ : PruneCandidate)).map (·.id) =
          (cs.map (·.1)).map (·.id) := by
      simp only [List.map_map]
      rfl
    split
    · next hall =>
      refine ⟨(out.eraseIdx (newest out)).map (·.1), hids _,
        ((List.eraseIdx_sublist _ _).map _).trans hsub, ?_, fun _ _ => ?_⟩
      · intro r hr
        obtain ⟨c, hc, rfl⟩ := List.mem_map.mp hr
        exact hneed c (List.mem_of_mem_eraseIdx hc)
      · rw [List.length_map, List.length_eraseIdx_of_lt (newest_lt hall.2.1), ← hall.2.2]
        exact Nat.sub_lt (List.length_pos_iff.mpr hall.2.1) Nat.one_pos
    · next hall =>
      refine ⟨out.map (·.1), hids _, hsub, ?_, fun hmode hne => ?_⟩
      · intro r hr
        obtain ⟨c, hc, rfl⟩ := List.mem_map.mp hr
        exact hneed c hc
      · refine Nat.lt_of_le_of_ne hsub.length_le fun hlen => hall ⟨hmode, ?_, by simpa using hlen⟩
        rintro rfl
        exact hne (List.length_eq_zero_iff.mp hlen.symm)

/-! Switching off. -/

theorem not_covers_of_not_needed {r : Rule} (hu : u ∈ behind) {src : String}
    (hsrc : src ∈ hubSrcs ∨ u.ownSource = some src)
    (h : needed behind hubSrcs r = false) : ruleCovers r (u.flow src) = false := by
  rw [Bool.eq_false_iff]
  intro hcov
  have hmem : src ∈ hubSrcs ++ u.ownSource.toList := by
    rcases hsrc with hsrc | hsrc
    · exact List.mem_append_left _ hsrc
    · rw [hsrc]
      exact List.mem_append_right _ (List.mem_singleton_self _)
  have hneed : needed behind hubSrcs r = true :=
    List.any_eq_true.mpr ⟨u, hu, List.any_eq_true.mpr ⟨src, hmem, hcov⟩⟩
  rw [h] at hneed
  cases hneed

theorem any_switchOff {rules : List Rule} {flow : Flow}
    (h : ∀ r ∈ rules, r.id ∈ ids → ruleCovers r flow = false) :
    (switchOff ids rules).any (ruleCovers · flow) = rules.any (ruleCovers · flow) := by
  induction rules with
  | nil => rfl
  | cons r rules ih =>
    have hrest := ih fun q hq => h q (List.mem_cons_of_mem _ hq)
    have hr : ruleCovers (if r.id ∈ ids then { r with enabled := false } else r) flow =
        ruleCovers r flow := by
      split
      · next hid =>
        rw [h r List.mem_cons_self hid]
        rfl
      · rfl
    rw [switchOff, List.map_cons, List.any_cons, List.any_cons, hr]
    exact congrArg _ hrest

/-- Rules that no upstream needs can go off together. -/
theorem upstreamCovered_switchOff {rules : List Rule} (hhub : hubHosts ⊆ hubSrcs) (hu : u ∈ behind)
    (hoff : ∀ r ∈ rules, r.id ∈ ids → needed behind hubSrcs r = false) :
    upstreamCovered u (switchOff ids rules) hubHosts = upstreamCovered u rules hubHosts := by
  have hsame (src : String) (hsrc : src ∈ hubSrcs ∨ u.ownSource = some src) :
      (switchOff ids rules).any (ruleCovers · (u.flow src)) =
        rules.any (ruleCovers · (u.flow src)) :=
    any_switchOff fun r hr hid => not_covers_of_not_needed hu hsrc (hoff r hr hid)
  unfold upstreamCovered
  cases hs : u.ownSource with
  | some s =>
    dsimp only
    rw [List.any_cons, List.any_cons, hsame s (Or.inr hs)]
    rfl
  | none =>
    dsimp only
    rw [Bool.eq_iff_iff, List.any_eq_true, List.any_eq_true]
    refine exists_congr fun src => and_congr_right fun hsrc => ?_
    rw [hsame src (Or.inl (hhub hsrc))]

/-- A rule that is offered is the one with its id. -/
theorem not_needed_of_offered (hids : (rules.map (·.id)).Nodup)
    (h : r.id ∈ (pruneCandidates dateParse behind hubSrcs now rules mode linkFound appliedState).map
      (·.id)) (hr : r ∈ rules) :
    needed behind hubSrcs r.toRule = false := by
  obtain ⟨offered, heq, hsub, hneed, -⟩ :=
    pruneCandidates_spec dateParse behind hubSrcs now mode linkFound
    appliedState rules
  rw [heq] at h
  obtain ⟨q, hq, hid⟩ := List.mem_map.mp h
  obtain rfl : q = r := List.inj_on_of_nodup_map hids (List.mem_filter.mp (hsub.subset hq)).1 hr hid
  exact hneed q hq

/-- Fewer ids than enabled rules leave one of them on. -/
theorem exists_enabled_of_offered (hids : (rules.map (·.id)).Nodup)
    (hsub : ids ⊆
      (pruneCandidates dateParse behind hubSrcs now rules .restricted linkFound appliedState).map
      (·.id))
    (hen : ∃ r ∈ rules, r.enabled = true) : ∃ r ∈ rules, r.enabled = true ∧ r.id ∉ ids := by
  obtain ⟨offered, heq, -, -, hlen⟩ :=
    pruneCandidates_spec dateParse behind hubSrcs now .restricted linkFound
    appliedState rules
  obtain ⟨q, hq, hqen⟩ := hen
  have hlt := hlen rfl (List.ne_nil_of_mem (List.mem_filter.mpr ⟨hq, hqen⟩))
  by_contra hnone
  push Not at hnone
  have hall : (rules.filter (·.enabled)).map (·.id) ⊆ offered.map (·.id) := by
    intro id hid
    obtain ⟨r, hr, rfl⟩ := List.mem_map.mp hid
    obtain ⟨hr, hen⟩ := List.mem_filter.mp hr
    exact heq ▸ hsub (hnone r hr hen)
  have hle := ((hids.sublist (List.filter_sublist.map _)).subperm hall).length_le
  rw [List.length_map, List.length_map] at hle
  omega

/-- Switching off what is offered, in any selection, cuts no upstream off and leaves a restricted
agent a rule. -/
theorem prune_keeps_coverage (dateParse : String → Option ℤ) (behind : List Upstream) (now : ℤ)
    (mode : IngressMode)
    (linkFound : Bool) (appliedState : Option String) (hids : (rules.map (·.id)).Nodup)
    (hhub : hubHosts ⊆ hubSrcs)
    (hsub : ids ⊆
      (pruneCandidates dateParse behind hubSrcs now rules mode linkFound appliedState).map (·.id)) :
    (∀ u ∈ behind, upstreamCovered u (switchOff ids (rules.map (·.toRule))) hubHosts =
      upstreamCovered u (rules.map (·.toRule)) hubHosts) ∧
    (mode = .restricted → (∃ r ∈ rules, r.enabled = true) →
      ∃ r ∈ switchOff ids (rules.map (·.toRule)), r.enabled = true) := by
  constructor
  · intro u hu
    refine upstreamCovered_switchOff hhub hu fun r hr hid => ?_
    obtain ⟨d, hd, rfl⟩ := List.mem_map.mp hr
    exact not_needed_of_offered hids (hsub hid) hd
  · rintro rfl hen
    obtain ⟨r, hr, hen, hid⟩ := exists_enabled_of_offered hids hsub hen
    refine ⟨_, List.mem_map_of_mem (List.mem_map_of_mem hr), ?_⟩
    rw [if_neg hid]
    exact hen

def quietRule (id : ℕ) (dst : String) : DatedRule :=
  ⟨⟨id, "quiet", ["10.10.0.1/32"], [dst], [], true, none, some 1790000000⟩, .absent,
    .number 1780000000⟩

theorem prune_keeps_coverage_quiet :
    (∀ u ∈ [(⟨"192.168.60.22", some 443, none, none⟩ : Upstream)],
      upstreamCovered u
        (switchOff [1]
          ([quietRule 1 "192.168.60.99/32", quietRule 2 "192.168.60.22/32"].map (·.toRule)))
        ["10.10.0.1/32"] =
      upstreamCovered u
        ([quietRule 1 "192.168.60.99/32", quietRule 2 "192.168.60.22/32"].map (·.toRule))
        ["10.10.0.1/32"]) ∧
    (IngressMode.restricted = .restricted →
      (∃ r ∈ [quietRule 1 "192.168.60.99/32", quietRule 2 "192.168.60.22/32"], r.enabled = true) →
      ∃ r ∈
        switchOff [1]
          ([quietRule 1 "192.168.60.99/32", quietRule 2 "192.168.60.22/32"].map (·.toRule)),
          r.enabled = true) :=
  prune_keeps_coverage (fun _ => none) [⟨"192.168.60.22", some 443, none, none⟩] 1800000000
    .restricted true
    (some "applied") (by decide) (List.Subset.refl _) (by decide)

end FloppyGuard.Ingress
