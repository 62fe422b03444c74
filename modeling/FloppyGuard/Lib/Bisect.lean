import Mathlib.Data.List.Basic

/-! Bisection of a list by a probe that tells on which side of an element the search goes on. -/
namespace Bisect

variable {α : Type*} {probe : α → Ordering} {xs : List α} {lo top i j : ℕ} {x y : α}

/-- The search between `lo` and `top`, without `top`. -/
def search (probe : α → Ordering) (xs : List α) (lo top : ℕ) : Option α :=
  if lo < top then
    match xs[(lo + (top - 1)) / 2]? with
    | none => none
    | some x =>
      match probe x with
      | .lt => search probe xs lo ((lo + (top - 1)) / 2)
      | .gt => search probe xs ((lo + (top - 1)) / 2 + 1) top
      | .eq => some x
  else none
termination_by top - lo
decreasing_by all_goals omega

def bisect (probe : α → Ordering) (xs : List α) : Option α := search probe xs 0 xs.length

theorem mem_of_search (h : search probe xs lo top = some x) : x ∈ xs := by
  fun_induction search probe xs lo top with
  | case1 => cases h
  | case2 lo top hlt y hget hprobe ih => exact ih h
  | case3 lo top hlt y hget hprobe ih => exact ih h
  | case4 lo top hlt y hget hprobe =>
    cases h
    exact List.mem_of_getElem? hget
  | case5 => cases h

/-- The probe goes left behind every element it goes left at, and right before every one it goes
right at. -/
def Directed (probe : α → Ordering) (xs : List α) : Prop :=
  xs.Pairwise fun x y => (probe x = .lt → probe y = .lt) ∧ (probe y = .gt → probe x = .gt)

theorem Directed.right (h : Directed probe xs) (hi : xs[i]? = some x) (hj : xs[j]? = some y)
    (hle : i ≤ j)
    (hx : probe x = .lt) : probe y = .lt := by
  rcases Nat.lt_or_eq_of_le hle with hlt | rfl
  · obtain ⟨hi', rfl⟩ := List.getElem?_eq_some_iff.mp hi
    obtain ⟨hj', rfl⟩ := List.getElem?_eq_some_iff.mp hj
    exact (List.pairwise_iff_getElem.mp h i j hi' hj' hlt).1 hx
  · exact Option.some.inj (hi.symm.trans hj) ▸ hx

theorem Directed.left (h : Directed probe xs) (hi : xs[i]? = some x) (hj : xs[j]? = some y)
    (hle : i ≤ j)
    (hy : probe y = .gt) : probe x = .gt := by
  rcases Nat.lt_or_eq_of_le hle with hlt | rfl
  · obtain ⟨hi', rfl⟩ := List.getElem?_eq_some_iff.mp hi
    obtain ⟨hj', rfl⟩ := List.getElem?_eq_some_iff.mp hj
    exact (List.pairwise_iff_getElem.mp h i j hi' hj' hlt).2 hy
  · exact Option.some.inj (hj.symm.trans hi) ▸ hy

/-- Every element outside of `lo` and `top` has been ruled out. -/
structure Bounds (probe : α → Ordering) (xs : List α) (lo top : ℕ) : Prop where
  le : top ≤ xs.length
  below : ∀ i < lo, ∀ x, xs[i]? = some x → probe x = .gt
  above : ∀ i, top ≤ i → ∀ x, xs[i]? = some x → probe x = .lt

theorem search_spec (h : Directed probe xs) (hb : Bounds probe xs lo top) :
    match search probe xs lo top with
    | some x => x ∈ xs ∧ probe x = .eq
    | none => ∀ x ∈ xs, probe x ≠ .eq := by
  fun_induction search probe xs lo top with
  | case1 lo top hlt hget =>
    have hnone := List.getElem?_eq_none_iff.mp hget
    have := hb.le
    omega
  | case2 lo top hlt x hget hprobe ih =>
    refine ih ⟨?_, hb.below, ?_⟩
    · have := hb.le
      omega
    · exact fun i hi y hy => h.right hget hy hi hprobe
  | case3 lo top hlt x hget hprobe ih =>
    refine ih ⟨hb.le, ?_, hb.above⟩
    exact fun i hi y hy => h.left hy hget (Nat.lt_succ_iff.mp hi) hprobe
  | case4 lo top hlt x hget hprobe => exact ⟨List.mem_of_getElem? hget, hprobe⟩
  | case5 lo top hle =>
    intro x hx heq
    obtain ⟨i, hi⟩ := List.mem_iff_getElem?.mp hx
    by_cases hbelow : i < lo
    · rw [hb.below i hbelow x hi] at heq
      cases heq
    · rw [hb.above i (by omega) x hi] at heq
      cases heq

theorem bisect_spec (h : Directed probe xs) :
    match bisect probe xs with
    | some x => x ∈ xs ∧ probe x = .eq
    | none => ∀ x ∈ xs, probe x ≠ .eq := by
  refine search_spec h ⟨Nat.le_refl _, fun i hi => absurd hi (Nat.not_lt_zero i), fun i hi x hx =>
    ?_⟩
  rw [List.getElem?_eq_none hi] at hx
  cases hx

/-- When only one element can be hit, the search finds it. -/
theorem bisect_eq_some_iff (h : Directed probe xs)
    (hone : ∀ x ∈ xs, ∀ y ∈ xs, probe x = .eq → probe y = .eq → x = y) :
    bisect probe xs = some x ↔ x ∈ xs ∧ probe x = .eq := by
  have hspec := bisect_spec h
  cases hfound : bisect probe xs with
  | none =>
    rw [hfound] at hspec
    exact iff_of_false nofun fun hx => hspec x hx.1 hx.2
  | some y =>
    rw [hfound] at hspec
    constructor
    · rintro ⟨⟩
      exact hspec
    · intro hx
      exact congrArg some (hone y hspec.1 x hx.1 hspec.2 hx.2)

end Bisect
