import FloppyGuard.Ingress.Filter
import Mathlib.Algebra.BigOperators.Ring.List
import Mathlib.Tactic.Ring

/-! How many lines the builder emits, against the estimate of `assertTotalLineCount`. -/
namespace FloppyGuard.Ingress

variable {inp : FilterInput} {rules : List Rule} {r : Rule} {sources destinations : List Cidr}
  {src : Cidr}

/-- Extra lines each destination and port of a source gets for partners' own traffic. -/
def aliasCount (inp : FilterInput) (src : Cidr) : ℕ :=
  (inp.directAliases.filter (aliasApplies inp src)).length

/-- The lines of a rule that no estimate counts. -/
def aliasLines (inp : FilterInput) (r : Rule) : ℕ :=
  ((r.sources.filterMap canonicalCidr).map (aliasCount inp)).sum * max 1 r.destinations.length *
    max 1 r.ports.length

theorem length_orAny {α : Type} (xs : List α) : (orAny xs).length = max 1 xs.length := by
  cases xs with
  | nil => rfl
  | cons a xs =>
    simp only [orAny, List.isEmpty_cons, Bool.false_eq_true, if_false, List.length_map,
      List.length_cons]
    omega

theorem length_comboLines {id : ℕ} {dst : Option Cidr} {p : Option Port} :
    (comboLines inp id src dst p).length = inp.ifaces.length + aliasCount inp src := by
  simp [comboLines, aliasCount]

theorem sum_const_add (n : ℕ) (xs : List Cidr) (f : Cidr → ℕ) (k : ℕ) :
    (xs.map fun c => k * (n + f c)).sum = k * (xs.length * n + (xs.map f).sum) := by
  induction xs with
  | nil => simp
  | cons c xs ih =>
    rw [List.map_cons, List.sum_cons, ih, List.length_cons, List.map_cons, List.sum_cons]
    ring

theorem length_expand : (expand inp r sources destinations).length =
    max 1 destinations.length * max 1 r.ports.length *
      (sources.length * inp.ifaces.length + (sources.map (aliasCount inp)).sum) := by
  simp only [expand, List.length_flatMap, length_comboLines, List.map_const',
    List.sum_replicate_nat,
    length_orAny, ← sum_const_add, Nat.mul_assoc]

theorem length_of_mapM {xs : List String} {ys : List Cidr} (h : xs.mapM canonicalCidr = some ys) :
    xs.filterMap canonicalCidr = ys ∧ ys.length = xs.length := by
  induction xs generalizing ys with
  | nil =>
    obtain rfl : [] = ys := by simpa using h
    exact ⟨rfl, rfl⟩
  | cons s xs ih =>
    rw [List.mapM_cons] at h
    obtain ⟨d, hd, h⟩ := Option.bind_eq_some_iff.mp h
    obtain ⟨ds, hds, h⟩ := Option.bind_eq_some_iff.mp h
    obtain rfl : d :: ds = ys := by simpa using h
    obtain ⟨rfl, hlen⟩ := ih hds
    exact ⟨by rw [List.filterMap_cons_some hd], by rw [List.length_cons, List.length_cons, hlen]⟩

/-- A rule's lines: its estimate once per interface, and the alias lines. -/
theorem length_ruleLines (hu : Usable r sources destinations) :
    (ruleLines inp r).length = ruleLineCount r * inp.ifaces.length + aliasLines inp r := by
  obtain ⟨rfl, hs⟩ := length_of_mapM hu.sources_ok
  obtain ⟨-, hd⟩ := length_of_mapM hu.destinations_ok
  rw [ruleLines_usable hu, length_expand, hs, hd, aliasLines, ruleLineCount, lineCount]
  ring

/-- The lines of all active rules that no estimate counts. -/
def totalAliasLines (inp : FilterInput) (rules : List Rule) : ℕ :=
  ((rules.filter (·.enabled)).map (aliasLines inp)).sum

theorem activeRules_perm : (activeRules rules).Perm (rules.filter (·.enabled)) :=
  List.perm_insertionSort _ _

theorem one_le_ifaces : 1 ≤ inp.ifaces.length := by simp [FilterInput.ifaces]

/-- What the builder counts is the estimate and the alias lines. -/
theorem length_allRuleLines
    (hu : ∀ r ∈ activeRules rules, ∃ sources destinations, Usable r sources destinations) :
    (allRuleLines inp rules).length =
      totalLineCount rules inp.ifaces.length + totalAliasLines inp rules := by
  have hlen : ((activeRules rules).map fun r => (ruleLines inp r).length) =
      (activeRules rules).map fun r => ruleLineCount r * inp.ifaces.length + aliasLines inp r := by
    refine List.map_congr_left fun r hr => ?_
    obtain ⟨sources, destinations, h⟩ := hu r hr
    exact length_ruleLines h
  rw [allRuleLines, List.length_flatMap, hlen, (activeRules_perm.map _).sum_eq, totalLineCount,
    totalAliasLines,
    max_eq_right one_le_ifaces, List.sum_map_add, List.sum_map_mul_right]

/-- Without direct links the estimate is exact. -/
theorem aliasLines_eq_zero (h : inp.directAliases = []) : aliasLines inp r = 0 := by
  have hcount : aliasCount inp = fun _ => 0 := by
    funext src
    simp [aliasCount, h]
  simp [aliasLines, hcount]

end FloppyGuard.Ingress
