import FloppyGuard.Ingress.Rules
import FloppyGuard.Lib.Chain

/-! What the emitted chain FG_IN does with a packet, and what a successful build consists of. -/
namespace FloppyGuard.Ingress

/-- A forwarded packet; `established` is conntrack's RELATED,ESTABLISHED. -/
structure Packet where
  inIface : String
  src : Ip
  dst : Ip
  proto : String
  dport : ℕ
  established : Bool

/-- `-p tcp -m tcp --dport a:b`. -/
def Port.admits (p : Port) (proto : String) (dport : ℕ) : Bool :=
  p.proto == proto && (portRange p.port.toList).any fun ab => decide (ab.1 ≤ dport) &&
    decide (dport ≤ ab.2)

/-- An absent part of a line admits everything. -/
def admitsDst (dst : Option Cidr) (y : Ip) : Bool := dst.all fun d => decide (y ∈ d)

def admitsPort (port : Option Port) (proto : String) (dport : ℕ) : Bool :=
  port.all fun p => p.admits proto dport

namespace Line

def hits : Line → Packet → Bool
  | established _, pkt => pkt.established
  | rule src dst inIface port _ _, pkt =>
    decide (pkt.src ∈ src) && admitsDst dst pkt.dst && inIface == pkt.inIface &&
      admitsPort port pkt.proto pkt.dport
  | drop inIface, pkt => inIface == pkt.inIface
  | table, _ | chain, _ | commit, _ => false

def verdict : Line → Option Target
  | established target => some target
  | rule _ _ _ _ _ target => some target
  | drop _ => some .drop
  | table | chain | commit => none

/-- The rule id in the comment. -/
def comment : Line → Option ℕ
  | rule _ _ _ _ id _ => some id
  | _ => none

end Line

/-- Where the walk of the chain ends for a packet; a RETURN decides nothing. -/
def walk (lines : List Line) (pkt : Packet) : Option Target :=
  (Chain.first Line.hits lines pkt).bind Line.verdict

/-- The comment of the first rule line the packet hits. -/
def firstRule (lines : List Line) (pkt : Packet) : Option ℕ :=
  (Chain.first Line.hits (lines.filter fun ln => ln.comment.isSome) pkt).bind Line.comment

variable {inp : FilterInput} {rules : List Rule} {r : Rule} {pkt : Packet} {ln : Line} {x y : Ip}
  {out : Restore} {items : List (Except BuildError Line)} {lines acc : List Line}

/-! A successful build. -/

theorem pushLines_ok : pushLines items acc = .ok lines ↔
    ∃ new, items = new.map .ok ∧ lines = acc ++ new ∧
    (new = [] ∨ lines.length ≤ maxLinesTotal) := by
  induction items generalizing acc with
  | nil =>
    simp only [pushLines, Except.ok.injEq]
    constructor
    · rintro rfl
      exact ⟨[], rfl, by simp, Or.inl rfl⟩
    · rintro ⟨new, hnew, rfl, -⟩
      simp [List.map_eq_nil_iff.mp hnew.symm]
  | cons item items ih =>
    cases item with
    | error e =>
      simp only [pushLines, reduceCtorEq, false_iff, not_exists, not_and]
      intro new hnew
      cases new <;> simp at hnew
    | ok l =>
      rw [pushLines]
      split
      · rename_i hlen
        simp only [reduceCtorEq, false_iff, not_exists, not_and]
        rintro new hnew rfl
        cases new with
        | nil => simp at hnew
        | cons l' new =>
          simp only [List.length_append, List.length_cons, reduceCtorEq, false_or]
          omega
      · rename_i hlen
        rw [ih]
        constructor
        · rintro ⟨new, rfl, rfl, h⟩
          refine ⟨l :: new, rfl, by simp, Or.inr ?_⟩
          rcases h with rfl | h
          · simp only [List.append_nil, List.length_append, List.length_singleton]
            omega
          · exact h
        · rintro ⟨new, hnew, rfl, h⟩
          cases new with
          | nil => simp at hnew
          | cons l' new =>
            simp only [List.map_cons, List.cons.injEq, Except.ok.injEq] at hnew
            obtain ⟨rfl, rfl⟩ := hnew
            exact ⟨new, rfl, by simp, Or.inr (by simpa using h)⟩

/-- The parts of a rule the builder accepts. -/
structure Usable (r : Rule) (sources destinations : List Cidr) : Prop where
  id_pos : 1 ≤ r.id
  sources_ok : r.sources.mapM canonicalCidr = some sources
  destinations_ok : r.destinations.mapM canonicalCidr = some destinations
  nonempty : sources ≠ []
  ports : ∀ p ∈ r.ports, validPort p = true

/-- The lines of one source, destination and port. -/
def comboLines (inp : FilterInput) (id : ℕ) (src : Cidr) (dst : Option Cidr) (p : Option Port) :
    List Line :=
  inp.ifaces.map (fun inIface => .rule src dst inIface p id inp.target) ++
    (inp.directAliases.filter (aliasApplies inp src)).map fun al =>
      .rule (hostCidr al.direct) dst al.iface p id inp.target

def expand (inp : FilterInput) (r : Rule) (sources destinations : List Cidr) : List Line :=
  sources.flatMap fun src => (orAny destinations).flatMap fun dst =>
    (orAny r.ports).flatMap fun p =>
    comboLines inp r.id src dst p

theorem comboItems_ok {id : ℕ} {src : Cidr} {dst : Option Cidr} {p : Option Port}
    (hp : p.all validPort = true) :
    comboItems inp id src dst p = (comboLines inp id src dst p).map .ok := by
  simp only [comboItems, comboLines, hp, if_true, List.map_append, List.map_map]
  rfl

theorem mem_orAny {α : Type} {xs : List α} {o : Option α} : o ∈ orAny xs ↔
    (o = none ∧ xs = []) ∨ ∃ a ∈ xs, o = some a := by
  cases xs with
  | nil => simp [orAny]
  | cons a xs => simp [orAny, eq_comm]

theorem exists_orAny {α : Type} {xs : List α} {P : α → Bool} :
    (∃ o ∈ orAny xs, o.all P = true) ↔ xs = [] ∨ ∃ a ∈ xs, P a = true := by
  constructor
  · rintro ⟨o, ho, h⟩
    rcases mem_orAny.mp ho with ⟨-, hnil⟩ | ⟨a, ha, rfl⟩
    · exact Or.inl hnil
    · exact Or.inr ⟨a, ha, h⟩
  · rintro (hnil | ⟨a, ha, h⟩)
    · exact ⟨none, mem_orAny.mpr (Or.inl ⟨rfl, hnil⟩), rfl⟩
    · exact ⟨some a, mem_orAny.mpr (Or.inr ⟨a, ha, rfl⟩), h⟩

theorem all_of_mem_orAny {p : Option Port} (hv : ∀ p ∈ r.ports, validPort p = true)
    (hp : p ∈ orAny r.ports) :
    p.all validPort = true := by
  rcases mem_orAny.mp hp with ⟨rfl, -⟩ | ⟨a, ha, rfl⟩
  · rfl
  · exact hv a ha

theorem ruleItems_usable {sources destinations : List Cidr} (h : Usable r sources destinations) :
    ruleItems inp r = (expand inp r sources destinations).map .ok := by
  have hid : ¬ r.id < 1 := Nat.not_lt.mpr h.id_pos
  have hne : sources.isEmpty = false := List.isEmpty_eq_false_iff.mpr h.nonempty
  simp only [ruleItems, hid, if_false, h.sources_ok, h.destinations_ok, hne, Bool.false_eq_true,
    expand,
    List.map_flatMap]
  refine List.flatMap_congr fun src _ => List.flatMap_congr fun dst _ =>
    List.flatMap_congr fun p hp => ?_
  exact comboItems_ok (all_of_mem_orAny h.ports hp)

/-- A rule that pushes without an error is usable. -/
theorem usable_of_ruleItems {new : List Line} (h : ruleItems inp r = new.map .ok) :
    ∃ sources destinations, Usable r sources destinations := by
  have herr (e : BuildError) : [Except.error e] ≠ new.map Except.ok := by
    intro h
    cases new <;> simp at h
  unfold ruleItems at h
  split at h
  · exact absurd h (herr _)
  · rename_i hid
    split at h
    · rename_i sources destinations hs hd
      split at h
      · exact absurd h (herr _)
      · rename_i hne
        have hne : sources ≠ [] := by simpa using hne
        refine ⟨sources, destinations, by omega, hs, hd, hne, fun p hp => ?_⟩
        -- a bad port would have been pushed as an error with the first source
        by_contra hbad
        obtain ⟨src, hsrc⟩ := List.exists_mem_of_ne_nil sources hne
        have hdst : ∃ dst, dst ∈ orAny destinations := by
          cases destinations with
          | nil => exact ⟨none, by simp [orAny]⟩
          | cons d ds => exact ⟨some d, by simp [orAny]⟩
        obtain ⟨dst, hdst⟩ := hdst
        have herr : Except.error (BuildError.badPort r.id) ∈ comboItems inp r.id src dst
            (some p) := by
          simp [comboItems, hbad, FilterInput.ifaces]
        have hmem : Except.error (BuildError.badPort r.id) ∈ new.map Except.ok := by
          rw [← h]
          exact List.mem_flatMap.mpr ⟨src, hsrc, List.mem_flatMap.mpr ⟨dst, hdst,
            List.mem_flatMap.mpr ⟨some p, mem_orAny.mpr (Or.inr ⟨p, hp, rfl⟩), herr⟩⟩⟩
        obtain ⟨l, -, hl⟩ := List.mem_map.mp hmem
        cases hl
    · exact absurd h (herr _)

/-- The lines a rule gives when it is usable. -/
def ruleLines (inp : FilterInput) (r : Rule) : List Line :=
  match r.sources.mapM canonicalCidr, r.destinations.mapM canonicalCidr with
  | some sources, some destinations => expand inp r sources destinations
  | _, _ => []

theorem ruleLines_usable {sources destinations : List Cidr} (h : Usable r sources destinations) :
    ruleLines inp r = expand inp r sources destinations := by
  simp only [ruleLines, h.sources_ok, h.destinations_ok]

/-- All rule lines of a chain, in rule order. -/
def allRuleLines (inp : FilterInput) (rules : List Rule) : List Line :=
  (activeRules rules).flatMap (ruleLines inp)

/-- The drops a restricted chain ends with. -/
def finalDrops (inp : FilterInput) : List Line :=
  if inp.ingressMode = .restricted then inp.ifaces.map .drop else []

/-- When the builder emits a chain. -/
structure Buildable (inp : FilterInput) (rules : List Rule) : Prop where
  needed : ¬ (inp.ingressMode = .open_ ∧ activeRules rules = [])
  wg : isWgIface inp.iface = true
  direct : ∀ d ∈ inp.directIfaces, isDirectIface d = true
  few : (activeRules rules).length ≤ maxRulesPerAgent
  usable : ∀ r ∈ activeRules rules, ∃ sources destinations, Usable r sources destinations
  fits : (allRuleLines inp rules).length ≤ maxLinesTotal

/-- The chain it emits then. -/
def restoreOf (inp : FilterInput) (rules : List Rule) : Restore where
  lines := [.table, .chain, .established inp.target] ++ allRuleLines inp rules ++ finalDrops inp ++
    [.commit]
  ruleCount := (allRuleLines inp rules).length

theorem flatMap_ruleItems {active : List Rule}
    (h : ∀ r ∈ active, ∃ sources destinations, Usable r sources destinations) :
    active.flatMap (ruleItems inp) = (active.flatMap (ruleLines inp)).map .ok := by
  rw [List.map_flatMap]
  refine List.flatMap_congr fun r hr => ?_
  obtain ⟨sources, destinations, hu⟩ := h r hr
  rw [ruleItems_usable hu, ruleLines_usable hu]

/-- Rules whose items are all lines are usable, one by one. -/
theorem usable_of_flatMap {active : List Rule} {new : List Line}
    (h : active.flatMap (ruleItems inp) = new.map .ok) :
    ∀ r ∈ active, ∃ sources destinations, Usable r sources destinations := by
  induction active generalizing new with
  | nil => nofun
  | cons a active ih =>
    rw [List.flatMap_cons] at h
    obtain ⟨l₁, l₂, rfl, h₁, h₂⟩ := List.append_eq_map_iff.mp h
    intro r hr
    rcases List.mem_cons.mp hr with rfl | hr
    · exact usable_of_ruleItems h₁.symm
    · exact ih h₂.symm r hr

theorem pushLines_flatMap {active : List Rule} :
    pushLines (active.flatMap (ruleItems inp)) [] = .ok lines ↔
    (∀ r ∈ active, ∃ sources destinations, Usable r sources destinations) ∧
      lines = active.flatMap (ruleLines inp) ∧ lines.length ≤ maxLinesTotal := by
  rw [pushLines_ok]
  constructor
  · rintro ⟨new, hnew, rfl, hlen⟩
    have hu := usable_of_flatMap hnew
    have hlines := hnew.symm.trans (flatMap_ruleItems hu)
    have hinj : Function.Injective (Except.ok : Line → Except BuildError Line) :=
      fun _ _ => Except.ok.inj
    refine ⟨hu, hinj.list_map hlines, ?_⟩
    rcases hlen with rfl | hlen
    · exact Nat.zero_le _
    · exact hlen
  · rintro ⟨hu, rfl, hlen⟩
    exact ⟨_, flatMap_ruleItems hu, rfl, Or.inr hlen⟩

theorem buildIngressRestore_of_buildable (h : Buildable inp rules) :
    buildIngressRestore inp rules = .ok (some (restoreOf inp rules)) := by
  have hdirect : inp.directIfaces.find? (!isDirectIface ·) = none := by
    rw [List.find?_eq_none]
    intro d hd
    simp [h.direct d hd]
  have hpush := pushLines_flatMap.mpr ⟨h.usable, rfl, h.fits⟩
  simp only [buildIngressRestore, if_neg h.needed, h.wg, Bool.not_true, Bool.false_eq_true,
    if_false, hdirect,
    if_neg (Nat.not_lt.mpr h.few), hpush]
  rfl

theorem buildIngressRestore_some (h : buildIngressRestore inp rules = .ok (some out)) :
    Buildable inp rules ∧ out = restoreOf inp rules := by
  have hb : Buildable inp rules := by
    unfold buildIngressRestore at h
    dsimp only at h
    split at h
    · cases h
    rename_i hneed
    split at h
    · cases h
    rename_i hwg
    split at h
    · cases h
    rename_i hdirect
    split at h
    · cases h
    rename_i hfew
    split at h
    · cases h
    rename_i lines hpush
    obtain ⟨hu, rfl, hlen⟩ := pushLines_flatMap.mp hpush
    exact ⟨hneed,
      by simpa using hwg, by simpa [List.find?_eq_none] using hdirect, Nat.not_lt.mp hfew, hu, hlen⟩
  have := h.symm.trans (buildIngressRestore_of_buildable hb)
  exact ⟨hb, Option.some.inj (Except.ok.inj this)⟩

/-- No chain at all: open mode without an enabled rule. -/
theorem buildIngressRestore_none (h : buildIngressRestore inp rules = .ok none) :
    inp.ingressMode = .open_ ∧ activeRules rules = [] := by
  by_contra hneed
  unfold buildIngressRestore at h
  dsimp only at h
  rw [if_neg hneed] at h
  split at h
  · cases h
  split at h
  · cases h
  split at h
  · cases h
  split at h <;> cases h

/-! What the lines of one rule take. -/

/-- Destination, protocol and port of a packet suit the rule. -/
def SuitsTarget (r : Rule) (destinations : List Cidr) (pkt : Packet) : Prop :=
  (∃ dst ∈ orAny destinations, admitsDst dst pkt.dst = true) ∧
    ∃ p ∈ orAny r.ports, admitsPort p pkt.proto pkt.dport = true

/-- One source takes the packet: by itself on any filtered interface, or through
an alias on the interface of a direct link. -/
def SuitsSource (inp : FilterInput) (src : Cidr) (pkt : Packet) : Prop :=
  (pkt.src ∈ src ∧ pkt.inIface ∈ inp.ifaces) ∨
    ∃ al ∈ inp.directAliases, aliasApplies inp src al = true ∧ al.iface = pkt.inIface ∧
      pkt.src = al.direct

@[simp] theorem hostCidr_base (x : Ip) : (hostCidr x).base = x := by
  change x &&& PrefixBlock.netmask 32 32 = x
  rw [PrefixBlock.netmask_full, BitVec.and_allOnes]

@[simp] theorem mem_hostCidr : x ∈ hostCidr y ↔ x = y := by
  rw [PrefixBlock.mem_host rfl, hostCidr_base]

@[simp] theorem contains_hostCidr {src : Cidr} : src.Contains (hostCidr x) ↔ x ∈ src :=
  ⟨fun h => h.mem (mem_hostCidr.mpr rfl),
    fun h => PrefixBlock.contains_of_mem_host rfl (by rwa [hostCidr_base])⟩

theorem aliasApplies_iff {src : Cidr} {al : DirectAlias} : aliasApplies inp src al = true ↔
    al.iface ∈ inp.directIfaces ∧ cidrContains src.render (al.hub ++ "/32") = true ∧
    al.direct ∉ src := by
  simp [aliasApplies, and_assoc]

theorem hit_comboLines {id : ℕ} {src : Cidr} {dst : Option Cidr} {p : Option Port} :
    Chain.Hit Line.hits (comboLines inp id src dst p) pkt ↔
      SuitsSource inp src pkt ∧ admitsDst dst pkt.dst = true ∧
      admitsPort p pkt.proto pkt.dport = true := by
  rw [comboLines, Chain.hit_append]
  constructor
  · rintro (⟨l, hl, h⟩ | ⟨l, hl, h⟩)
    · obtain ⟨i, hi, rfl⟩ := List.mem_map.mp hl
      simp only [Line.hits, Bool.and_eq_true, decide_eq_true_eq, beq_iff_eq] at h
      obtain ⟨⟨⟨hsrc, hdst⟩, rfl⟩, hp⟩ := h
      exact ⟨Or.inl ⟨hsrc, hi⟩, hdst, hp⟩
    · obtain ⟨al, hal, rfl⟩ := List.mem_map.mp hl
      obtain ⟨hal, ha⟩ := List.mem_filter.mp hal
      simp only [Line.hits, Bool.and_eq_true, decide_eq_true_eq, beq_iff_eq, mem_hostCidr] at h
      obtain ⟨⟨⟨hsrc, hdst⟩, hi⟩, hp⟩ := h
      exact ⟨Or.inr ⟨al, hal, ha, hi, hsrc⟩, hdst, hp⟩
  · rintro ⟨⟨hsrc, hi⟩ | ⟨al, hal, ha, hi, hsrc⟩, hdst, hp⟩
    · exact Or.inl ⟨_, List.mem_map_of_mem hi, by simp [Line.hits, hsrc, hdst, hp]⟩
    · exact Or.inr ⟨_, List.mem_map_of_mem (List.mem_filter.mpr ⟨hal, ha⟩),
        by simp [Line.hits, hsrc, hdst, hi, hp]⟩

theorem hit_expand {sources destinations : List Cidr} :
    Chain.Hit Line.hits (expand inp r sources destinations) pkt ↔
      (∃ src ∈ sources, SuitsSource inp src pkt) ∧ SuitsTarget r destinations pkt := by
  simp only [expand, Chain.hit_flatMap, hit_comboLines, SuitsTarget]
  constructor
  · rintro ⟨src, hsrc, dst, hdst, p, hp, hs, hd, hpt⟩
    exact ⟨⟨src, hsrc, hs⟩, ⟨dst, hdst, hd⟩, p, hp, hpt⟩
  · rintro ⟨⟨src, hsrc, hs⟩, ⟨dst, hdst, hd⟩, p, hp, hpt⟩
    exact ⟨src, hsrc, dst, hdst, p, hp, hs, hd, hpt⟩

/-- Every line of a rule carries its id and the chain's target. -/
theorem mem_expand {sources destinations : List Cidr} (h : ln ∈ expand inp r sources destinations) :
    ln.comment = some r.id ∧ ln.verdict = some inp.target := by
  simp only [expand, comboLines, List.mem_flatMap, List.mem_append, List.mem_map] at h
  obtain ⟨src, -, dst, -, p, -, ⟨i, -, rfl⟩ | ⟨al, -, rfl⟩⟩ := h <;> exact ⟨rfl, rfl⟩

theorem mem_ruleLines (h : ln ∈ ruleLines inp r) :
    ln.comment = some r.id ∧ ln.verdict = some inp.target := by
  unfold ruleLines at h
  split at h
  · exact mem_expand h
  · cases h

theorem mem_allRuleLines (h : ln ∈ allRuleLines inp rules) :
    ln.comment.isSome = true ∧ ln.verdict = some inp.target := by
  obtain ⟨r, -, hl⟩ := List.mem_flatMap.mp h
  exact ⟨by simp [(mem_ruleLines hl).1], (mem_ruleLines hl).2⟩

/-! The interfaces: a hub interface is no direct interface. -/

theorem not_isDirectIface {name : String} (h : isWgIface name = true) :
    isDirectIface name = false := by
  unfold isWgIface at h
  split at h
  · rename_i digits hname
    simp [isDirectIface, hname]
  · cases h

theorem iface_not_direct (h : Buildable inp rules) : inp.iface ∉ inp.directIfaces := by
  intro hm
  have := h.direct inp.iface hm
  simp [not_isDirectIface h.wg] at this

/-- On the hub interface no alias applies. -/
theorem suitsSource_hub (h : Buildable inp rules) {src : Cidr} (hi : pkt.inIface = inp.iface) :
    SuitsSource inp src pkt ↔ pkt.src ∈ src := by
  constructor
  · rintro (⟨hsrc, -⟩ | ⟨al, -, ha, hal, -⟩)
    · exact hsrc
    · exact absurd (hal.trans hi ▸ (aliasApplies_iff.mp ha).1) (iface_not_direct h)
  · intro hsrc
    exact Or.inl ⟨hsrc, by simp [FilterInput.ifaces, hi]⟩

/-! Where the walk ends. -/

theorem first_restoreOf : Chain.first Line.hits (restoreOf inp rules).lines pkt =
    if pkt.established then some (.established inp.target)
    else ((Chain.first Line.hits (allRuleLines inp rules) pkt).or
      (Chain.first Line.hits (finalDrops inp) pkt)) := by
  have hcommit : Chain.first Line.hits [.commit] pkt = none := rfl
  rw [restoreOf, Chain.first_append, Chain.first_append, Chain.first_append, hcommit,
    Option.or_none]
  cases he : pkt.established <;> simp [Chain.first, Line.hits, he]

theorem verdict_rules (h : Chain.Hit Line.hits (allRuleLines inp rules) pkt) :
    (Chain.first Line.hits (allRuleLines inp rules) pkt).bind Line.verdict = some inp.target := by
  obtain ⟨l, hl⟩ := Chain.exists_first h
  rw [hl]
  exact (mem_allRuleLines (Chain.first_mem hl)).2

theorem first_finalDrops (hm : inp.ingressMode = .restricted) :
    (Chain.first Line.hits (finalDrops inp) pkt).bind Line.verdict =
      if pkt.inIface ∈ inp.ifaces then some .drop else none := by
  rw [finalDrops, if_pos hm]
  split
  · rename_i hi
    have hhit : Chain.Hit Line.hits (inp.ifaces.map .drop) pkt :=
      ⟨.drop pkt.inIface, List.mem_map_of_mem hi, by simp [Line.hits]⟩
    obtain ⟨l, hl⟩ := Chain.exists_first hhit
    obtain ⟨i, -, rfl⟩ := List.mem_map.mp (Chain.first_mem hl)
    rw [hl]
    rfl
  · rename_i hi
    rw [Chain.first_eq_none.mpr]
    · rfl
    · rintro ⟨l, hl, h⟩
      obtain ⟨i, hi', rfl⟩ := List.mem_map.mp hl
      simp only [Line.hits, beq_iff_eq] at h
      exact hi (h ▸ hi')

open Classical in
/-- A restricted chain accepts what is established or hits a rule line, and drops
the rest on its interfaces. -/
theorem walk_restricted (hm : inp.ingressMode = .restricted) :
    walk (restoreOf inp rules).lines pkt =
    if pkt.established = true ∨ Chain.Hit Line.hits (allRuleLines inp rules) pkt then some .accept
    else if pkt.inIface ∈ inp.ifaces then some .drop else none := by
  have htarget : inp.target = .accept := by simp [FilterInput.target, hm]
  rw [walk, first_restoreOf]
  cases he : pkt.established with
  | true => simp [Line.verdict, htarget]
  | false =>
    by_cases hh : Chain.Hit Line.hits (allRuleLines inp rules) pkt
    · have hv := verdict_rules hh
      obtain ⟨l, hl⟩ := Chain.exists_first hh
      rw [hl] at hv
      simpa [hl, hh, htarget] using hv
    · simpa [Chain.first_eq_none.mpr hh, hh] using first_finalDrops hm

/-- An open chain decides nothing. -/
theorem walk_open (hm : inp.ingressMode = .open_) :
    walk (restoreOf inp rules).lines pkt = none ∨ walk (restoreOf inp rules).lines pkt =
      some .return_ := by
  have htarget : inp.target = .return_ := by simp [FilterInput.target, hm]
  rw [walk, first_restoreOf]
  cases he : pkt.established with
  | true => exact Or.inr (by simp [Line.verdict, htarget])
  | false =>
    by_cases hh : Chain.Hit Line.hits (allRuleLines inp rules) pkt
    · have hv := verdict_rules hh
      obtain ⟨l, hl⟩ := Chain.exists_first hh
      rw [hl] at hv
      exact Or.inr (by simpa [hl, htarget] using hv)
    · have hdrops : finalDrops inp = [] := by simp [finalDrops, hm]
      left
      rw [if_neg Bool.false_ne_true, Chain.first_eq_none.mpr hh, hdrops]
      rfl

/-- The rule lines of a chain are the lines of its rules. -/
theorem filter_restoreOf : (restoreOf inp rules).lines.filter (fun ln => ln.comment.isSome) =
    allRuleLines inp rules := by
  have hall : (allRuleLines inp rules).filter (fun ln => ln.comment.isSome) =
      allRuleLines inp rules :=
    List.filter_eq_self.mpr fun ln hln => (mem_allRuleLines hln).1
  have hdrops : (finalDrops inp).filter (fun ln => ln.comment.isSome) = [] := by
    rw [List.filter_eq_nil_iff]
    intro ln hln
    unfold finalDrops at hln
    split at hln
    · obtain ⟨i, -, rfl⟩ := List.mem_map.mp hln
      simp [Line.comment]
    · cases hln
  have hhead : [Line.table, .chain, .established inp.target].filter (fun ln => ln.comment.isSome) =
      [] := rfl
  have hcommit : [Line.commit].filter (fun ln => ln.comment.isSome) = [] := rfl
  simp only [restoreOf, List.filter_append, hall, hdrops, hhead, hcommit, List.nil_append,
    List.append_nil]

/-- The first rule line hit belongs to the first active rule that takes the packet. -/
theorem firstRule_eq {hit : Rule → Bool}
    (hh : ∀ r ∈ activeRules rules, hit r = true ↔ Chain.Hit Line.hits (ruleLines inp r) pkt) :
    firstRule (restoreOf inp rules).lines pkt = ((activeRules rules).find? hit).map Rule.id := by
  rw [firstRule, filter_restoreOf]
  have htag : (Chain.first Line.hits ((activeRules rules).flatMap (ruleLines inp)) pkt).map
    Line.comment =
      ((activeRules rules).find? hit).map fun r => some r.id :=
    Chain.map_first_flatMap (fun r _ ln hln => (mem_ruleLines hln).1) hh
  rw [allRuleLines]
  cases hf : Chain.first Line.hits ((activeRules rules).flatMap (ruleLines inp)) pkt <;>
    cases hr : (activeRules rules).find? hit <;> simp_all

/-- A web rule after a switched-off one, behind a gateway with one direct link. -/
def sampleRules : List Rule :=
  [⟨5, "Web", ["10.10.0.0/24"], ["192.168.1.0/24"], [⟨"tcp", "80:443"⟩], true, none, none⟩,
    ⟨2, "Alt", ["10.10.0.1/32"], [], [], false, none, none⟩]

def sampleInput : FilterInput :=
  ⟨.restricted, "wg0", ["fgd7"], [⟨"fgd7", "10.10.0.9", 0x0aff0002#32⟩]⟩

def samplePacket : Packet := ⟨"wg0", 0x0a0a0001#32, 0xc0a80114#32, "tcp", 443, false⟩

theorem sampleInput_builds : buildIngressRestore sampleInput sampleRules =
    .ok (some (restoreOf sampleInput sampleRules)) := by
  decide +kernel

end FloppyGuard.Ingress
