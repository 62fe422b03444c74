import FloppyGuard.Ingress.Filter

/-! The traffic tester `evaluateFlow` of `agent-ingress-catalog.js` against the emitted chain. -/
namespace FloppyGuard.Ingress

structure RuleRef where
  id : ℕ
  name : String
deriving DecidableEq

/-- A drop rule set by hand outside FloppyGuard. -/
structure DropRef where
  family : String
  table : String
  chain : String
  comment : Option String

/-- What the hub's site isolation says about the flow. -/
structure Isolation where
  blocked : Bool
  isPartial : Bool
  applied : Option Bool
  pair : Option SiteIsolation.PairRef
  manual : Option DropRef

structure FlowInput where
  mode : IngressMode
  rules : List Rule
  ownNets : List String
  hubNets : List String
  flow : Flow
  appliedState : Option String
  isolation : Option Isolation

structure FlowResult where
  mode : IngressMode
  matchedRules : List RuleRef
  disabledMatch : Option RuleRef
  portUnknown : Bool
  notes : List String
  allowed : Option Bool
  filtered : Bool
  reason : String
  rule : Option RuleRef
  siteIsolation : Option SiteIsolation.PairRef
  siteIsolationManual : Option DropRef

def ruleRef (r : Rule) : RuleRef := ⟨r.id, r.name⟩

def isBlocked (q : FlowInput) : Bool := q.isolation.any (·.blocked)

def flowNotes (q : FlowInput) : List String :=
  ["established-return", "forward-only"] ++
    (if q.appliedState.any (· != "applied") then ["not-applied"] else []) ++
    (if isBlocked q then
      if q.isolation.any (·.applied == some false) then ["site-isolation-not-applied"] else []
    else if q.isolation.any (·.isPartial) then ["site-isolation-partial"] else [])

/-- The fields every answer starts from. -/
def flowBase (q : FlowInput) : FlowResult where
  mode := q.mode
  matchedRules := []
  disabledMatch := none
  portUnknown := false
  notes := flowNotes q
  allowed := none
  filtered := false
  reason := ""
  rule := none
  siteIsolation := none
  siteIsolationManual := none

def sortRules (rules : List Rule) : List Rule := rules.insertionSort (·.id ≤ ·.id)

def matches_ (q : FlowInput) : List Rule := (sortRules q.rules).filter (ruleCovers · q.flow)

def evaluateFlow (q : FlowInput) : FlowResult :=
  let base := flowBase q
  if isBlocked q then
    { base with
      allowed := some false
      filtered := true
      reason := "site-isolation"
      siteIsolation := q.isolation.bind (·.pair)
      siteIsolationManual := q.isolation.bind (·.manual) }
  else if !q.ownNets.any (cidrContains · q.flow.dst) ||
    q.hubNets.any (cidrContains · q.flow.dst) then
    { base with reason := "not-via-agent" }
  else if q.ownNets.any (cidrContains · q.flow.src) then { base with reason := "same-site" }
  else
    let sorted := sortRules q.rules
    let disabled := sorted.find? fun r => !r.enabled && ruleCovers { r with enabled := true } q.flow
    let portUnknown := q.flow.port.isNone && (matches_ q).isEmpty &&
      sorted.any fun r => r.enabled && !r.ports.isEmpty && ruleCovers { r with ports := [] } q.flow
    let out := { base with
      matchedRules := (matches_ q).map ruleRef
      disabledMatch := disabled.map ruleRef
      portUnknown := portUnknown }
    match q.mode, (matches_ q).head? with
    | .open_, first =>
      { out with
        allowed := some true, filtered := false, reason := "open-mode", rule := first.map ruleRef }
    | .restricted, some first =>
      { out with
        allowed := some true, filtered := true, reason := "rule", rule := some (ruleRef first) }
    | .restricted, none => { out with allowed := some false, filtered := true, reason := "no-rule" }

variable {inp : FilterInput} {rules : List Rule} {r : Rule} {pkt : Packet} {q : FlowInput}
  {x y : Ip}
  {out : Restore}

/-- The query of the tester that stands for a packet. -/
def flowOf (pkt : Packet) : Flow :=
  ⟨(hostCidr pkt.src).render, (hostCidr pkt.dst).render, some pkt.dport, pkt.proto⟩

theorem mem_of_mapM {xs : List String} {ys : List Cidr} (h : xs.mapM canonicalCidr = some ys)
    (c : Cidr) :
    c ∈ ys ↔ ∃ s ∈ xs, canonicalCidr s = some c := by
  induction xs generalizing ys with
  | nil =>
    obtain rfl : [] = ys := by simpa using h
    simp
  | cons s xs ih =>
    rw [List.mapM_cons] at h
    obtain ⟨d, hd, h⟩ := Option.bind_eq_some_iff.mp h
    obtain ⟨ds, hds, h⟩ := Option.bind_eq_some_iff.mp h
    obtain rfl : d :: ds = ys := by simpa using h
    simp [ih hds, hd, eq_comm]

/-- Containment of a host in listed networks is membership in the parsed ones. -/
theorem any_contains_host {xs : List String} {ys : List Cidr}
    (h : xs.mapM canonicalCidr = some ys) :
    xs.any (cidrContains · (hostCidr x).render) = true ↔ ∃ c ∈ ys, x ∈ c := by
  simp only [List.any_eq_true, cidrContains_iff, canonicalCidr_render, Option.some.injEq,
    mem_of_mapM h]
  constructor
  · rintro ⟨s, hs, c, i, hc, rfl, hi⟩
    exact ⟨c, ⟨s, hs, hc⟩, contains_hostCidr.mp hi⟩
  · rintro ⟨c, ⟨s, hs, hc⟩, hx⟩
    exact ⟨s, hs, c, _, hc, rfl, contains_hostCidr.mpr hx⟩

theorem portCovers_flowOf (p : Port) :
    portCovers (flowOf pkt) p = p.admits pkt.proto pkt.dport := by
  unfold portCovers Port.admits flowOf
  cases portRange p.port.toList <;> rfl

theorem mapM_eq_nil {xs : List String} {ys : List Cidr} (h : xs.mapM canonicalCidr = some ys) :
    xs = [] ↔ ys = [] := by
  cases xs with
  | nil => simpa using h.symm
  | cons s xs =>
    rw [List.mapM_cons] at h
    obtain ⟨d, -, h⟩ := Option.bind_eq_some_iff.mp h
    obtain ⟨ds, -, h⟩ := Option.bind_eq_some_iff.mp h
    obtain rfl : d :: ds = ys := by simpa using h
    simp

/-- An enabled usable rule covers the query of a packet when one of its sources has
the packet's and the rest suits. -/
theorem ruleCovers_iff {sources destinations : List Cidr} (hu : Usable r sources destinations)
    (he : r.enabled = true) : ruleCovers r (flowOf pkt) = true ↔
      (∃ src ∈ sources, pkt.src ∈ src) ∧ SuitsTarget r destinations pkt := by
  have hsrc : r.sources.any (cidrContains · (flowOf pkt).src) = true ↔ ∃ src ∈ sources,
      pkt.src ∈ src :=
    any_contains_host hu.sources_ok
  have hdst : (r.destinations.isEmpty || r.destinations.any (cidrContains · (flowOf pkt).dst)) =
    true ↔
      ∃ dst ∈ orAny destinations, admitsDst dst pkt.dst = true := by
    have hany := any_contains_host (x := pkt.dst) hu.destinations_ok
    rw [Bool.or_eq_true, List.isEmpty_iff, mapM_eq_nil hu.destinations_ok]
    exact (or_congr Iff.rfl (hany.trans (by simp))).trans exists_orAny.symm
  have hport : (r.ports.isEmpty || (flowOf pkt).port.isSome &&
    r.ports.any (portCovers (flowOf pkt))) = true ↔
      ∃ p ∈ orAny r.ports, admitsPort p pkt.proto pkt.dport = true := by
    have hsome : (flowOf pkt).port.isSome = true := rfl
    have hany : r.ports.any (portCovers (flowOf pkt)) = true ↔
        ∃ p ∈ r.ports, p.admits pkt.proto pkt.dport = true := by
      simp only [List.any_eq_true, portCovers_flowOf]
    rw [Bool.or_eq_true, List.isEmpty_iff, hsome, Bool.true_and, hany]
    exact exists_orAny.symm
  rw [ruleCovers, he, Bool.true_and, Bool.and_eq_true, Bool.and_eq_true, hsrc, hdst, hport,
    and_assoc]
  rfl

/-- On the hub interface a rule's lines take exactly the packets the rule covers. -/
theorem hit_ruleLines_hub (hb : Buildable inp rules) (hr : r ∈ activeRules rules)
    (hi : pkt.inIface = inp.iface) :
    ruleCovers r (flowOf pkt) = true ↔ Chain.Hit Line.hits (ruleLines inp r) pkt := by
  obtain ⟨sources, destinations, hu⟩ := hb.usable r hr
  have he : r.enabled = true := by
    have := (List.mem_insertionSort _).mp hr
    exact (List.mem_filter.mp this).2
  simp only [ruleCovers_iff hu he, ruleLines_usable hu, hit_expand, suitsSource_hub hb hi]

/-- Sorting the enabled rules is picking them from the sorted rules. -/
theorem activeRules_eq (rules : List Rule) :
    activeRules rules = (sortRules rules).filter (·.enabled) := by
  have : IsTrans Rule (·.id ≤ ·.id) := ⟨fun _ _ _ => Nat.le_trans⟩
  have : Std.Total (fun a b : Rule => a.id ≤ b.id) := ⟨fun a b => Nat.le_total a.id b.id⟩
  exact (Chain.filter_insertionSort rules).symm

theorem head?_matches : (matches_ q).head? = (activeRules q.rules).find? (ruleCovers · q.flow) := by
  rw [matches_, List.head?_filter, activeRules_eq, List.find?_filter]
  congr 1
  funext r
  have he : ruleCovers r q.flow = true → r.enabled = true := by
    intro h
    simp only [ruleCovers, Bool.and_eq_true] at h
    exact h.1.1.1
  cases hc : ruleCovers r q.flow with
  | false => simp
  | true => simp [he hc]

/-- A query about a new connection through the hub into the agent's networks, where
the hub separates nothing. -/
structure ThroughHub (q : FlowInput) (pkt : Packet) : Prop where
  flow : q.flow = flowOf pkt
  unblocked : isBlocked q = false
  dst_own : q.ownNets.any (cidrContains · q.flow.dst) = true
  dst_hub : q.hubNets.any (cidrContains · q.flow.dst) = false
  src_own : q.ownNets.any (cidrContains · q.flow.src) = false
  fresh : pkt.established = false

theorem evaluateFlow_rule (h : ThroughHub q pkt) :
    (evaluateFlow q).rule = ((activeRules q.rules).find? (ruleCovers · q.flow)).map ruleRef := by
  have hb := h.unblocked
  simp only [evaluateFlow, hb, h.dst_own, h.dst_hub, h.src_own, head?_matches, Bool.not_true,
    Bool.or_self,
    Bool.false_eq_true, if_false]
  cases q.mode <;> cases (activeRules q.rules).find? (ruleCovers · q.flow) <;> rfl

theorem evaluateFlow_allowed (h : ThroughHub q pkt) (hm : q.mode = .restricted) :
    (evaluateFlow q).allowed = some ((activeRules q.rules).find? (ruleCovers · q.flow)).isSome := by
  have hb := h.unblocked
  simp only [evaluateFlow, hb, h.dst_own, h.dst_hub, h.src_own, head?_matches, Bool.not_true,
    Bool.or_self,
    Bool.false_eq_true, if_false, hm]
  cases (activeRules q.rules).find? (ruleCovers · q.flow) <;> rfl

theorem covering_isSome : ((activeRules rules).find? (ruleCovers · q.flow)).isSome = true ↔
    ∃ r ∈ activeRules rules, ruleCovers r q.flow = true := by
  simp [List.find?_isSome]

/-- The tester answers what the emitted chain does. -/
theorem evaluateFlow_agrees {built : Option Restore} (hq : ThroughHub q pkt)
    (hm : q.mode = inp.ingressMode) (hi : pkt.inIface = inp.iface)
    (hbuild : buildIngressRestore inp q.rules = .ok built) :
    (inp.ingressMode = .restricted → ∃ out, built = some out ∧
      ((evaluateFlow q).allowed = some true ↔ walk out.lines pkt = some .accept) ∧
      ((evaluateFlow q).allowed ≠ some true → walk out.lines pkt = some .drop) ∧
      (evaluateFlow q).rule.map RuleRef.id = firstRule out.lines pkt) ∧
    (inp.ingressMode = .open_ → (built = none ∧ (evaluateFlow q).rule = none) ∨
      ∃ out, built = some out ∧ walk out.lines pkt ≠ some .accept ∧
      walk out.lines pkt ≠ some .drop ∧
        (evaluateFlow q).rule.map RuleRef.id = firstRule out.lines pkt) := by
  cases built with
  | none =>
    obtain ⟨hopen, hnil⟩ := buildIngressRestore_none hbuild
    refine ⟨fun hr => by simp [hopen] at hr, fun _ => Or.inl ⟨rfl, ?_⟩⟩
    rw [evaluateFlow_rule hq, hnil]
    rfl
  | some out =>
    obtain ⟨hb, rfl⟩ := buildIngressRestore_some hbuild
    have hcover (r : Rule) (hr : r ∈ activeRules q.rules) :
        ruleCovers r q.flow = true ↔ Chain.Hit Line.hits (ruleLines inp r) pkt := by
      rw [hq.flow]
      exact hit_ruleLines_hub hb hr hi
    have hrule : (evaluateFlow q).rule.map RuleRef.id = firstRule (restoreOf inp q.rules).lines
        pkt := by
      rw [evaluateFlow_rule hq, firstRule_eq hcover, Option.map_map]
      rfl
    have hhit : ((activeRules q.rules).find? (ruleCovers · q.flow)).isSome = true ↔
        Chain.Hit Line.hits (allRuleLines inp q.rules) pkt := by
      rw [covering_isSome, allRuleLines, Chain.hit_flatMap]
      exact exists_congr fun r => and_congr_right (hcover r)
    constructor
    · intro hr
      have hwalk : walk (restoreOf inp q.rules).lines pkt = _ := walk_restricted hr
      rw [hq.fresh] at hwalk
      have hin : pkt.inIface ∈ inp.ifaces := by simp [FilterInput.ifaces, hi]
      rw [evaluateFlow_allowed hq (hm.trans hr)]
      refine ⟨_, rfl, ?_, ?_, hrule⟩
      · by_cases hh : Chain.Hit Line.hits (allRuleLines inp q.rules) pkt
        · simp [hwalk, hh, hhit]
        · simp [hwalk, hh, hin, hhit]
      · intro hno
        have hh : ¬ Chain.Hit Line.hits (allRuleLines inp q.rules) pkt :=
          fun hh => hno (by rw [hhit.mpr hh])
        simp [hwalk, hh, hin]
    · intro ho
      have hwalk : walk (restoreOf inp q.rules).lines pkt = none ∨
          walk (restoreOf inp q.rules).lines pkt = some .return_ := walk_open ho
      refine Or.inr ⟨_, rfl, ?_, ?_, hrule⟩ <;> rcases hwalk with h | h <;> simp [h]

def sampleQuery : FlowInput :=
  ⟨.restricted, sampleRules, ["192.168.1.0/24"], ["10.10.0.0/24"], flowOf samplePacket,
    some "applied", none⟩

theorem evaluateFlow_agrees_sample :
    (evaluateFlow sampleQuery).allowed = some true ∧
      walk (restoreOf sampleInput sampleRules).lines samplePacket = some .accept ∧
      (evaluateFlow sampleQuery).rule.map RuleRef.id =
        firstRule (restoreOf sampleInput sampleRules).lines samplePacket := by
  have hq : ThroughHub sampleQuery samplePacket :=
    ⟨rfl, by decide, by decide, by decide, by decide, rfl⟩
  obtain ⟨out, hout, hallowed, -, hrule⟩ :=
    (evaluateFlow_agrees hq rfl rfl sampleInput_builds).1 rfl
  obtain rfl := Option.some.inj hout
  have hok : (evaluateFlow sampleQuery).allowed = some true := by decide +kernel
  exact ⟨hok, hallowed.mp hok, hrule⟩

end FloppyGuard.Ingress
