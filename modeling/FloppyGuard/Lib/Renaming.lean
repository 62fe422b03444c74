import Mathlib.Data.List.Nodup

/-! Renaming by a list of pairs: pair after pair, or all pairs at once. -/
namespace Renaming

variable {α β : Type*} [DecidableEq α] {ps : List (α × α)} {p : α × α} {x : α}

def one (p : α × α) (x : α) : α := if x = p.1 then p.2 else x

/-- The pairs one after the other, each on what the last has left. -/
def inTurn (ps : List (α × α)) (x : α) : α := ps.foldl (fun x p => one p x) x

/-- The first pair that fits. -/
def atOnce : List (α × α) → α → α
  | [], x => x
  | p :: ps, x => if x = p.1 then p.2 else atOnce ps x

theorem inTurn_of_notMem (h : ∀ p ∈ ps, x ≠ p.1) : inTurn ps x = x := by
  induction ps with
  | nil => rfl
  | cons p ps ih =>
    rw [inTurn, List.foldl_cons, one, if_neg (h p List.mem_cons_self)]
    exact ih fun q hq => h q (List.mem_cons_of_mem _ hq)

/-- Where no pair leads to the start of another, the order does not matter. -/
theorem inTurn_eq_atOnce (h : ∀ p ∈ ps, ∀ q ∈ ps, p.2 ≠ q.1) : inTurn ps x = atOnce ps x := by
  induction ps with
  | nil => rfl
  | cons p ps ih =>
    rw [inTurn, List.foldl_cons, one, atOnce]
    split
    · exact inTurn_of_notMem fun q hq => h p List.mem_cons_self q (List.mem_cons_of_mem _ hq)
    · exact ih fun p hp q hq => h p (List.mem_cons_of_mem _ hp) q (List.mem_cons_of_mem _ hq)

theorem atOnce_of_notMem (h : ∀ p ∈ ps, x ≠ p.1) : atOnce ps x = x := by
  induction ps with
  | nil => rfl
  | cons p ps ih =>
    rw [atOnce, if_neg (h p List.mem_cons_self)]
    exact ih fun q hq => h q (List.mem_cons_of_mem _ hq)

theorem atOnce_of_mem (hn : (ps.map Prod.fst).Nodup) (hp : p ∈ ps) : atOnce ps p.1 = p.2 := by
  induction ps with
  | nil => simp at hp
  | cons q ps ih =>
    rw [List.map_cons, List.nodup_cons] at hn
    rw [atOnce]
    rcases List.mem_cons.mp hp with rfl | hp
    · exact if_pos rfl
    · have hne : p.1 ≠ q.1 := fun he => hn.1 (he ▸ List.mem_map_of_mem hp)
      rw [if_neg hne]
      exact ih hn.2 hp

/-! A detour: every pair goes over a place of its own that nothing else uses. -/
section Detour
variable {xs : List β} {src dst : β → α} {via : β → α}

def steps (src dst : β → α) (xs : List β) : List (α × α) := xs.map fun b => (src b, dst b)

omit [DecidableEq α] in
theorem forall_steps {P : α × α → Prop} :
    (∀ p ∈ steps src dst xs, P p) ↔ ∀ b ∈ xs, P (src b, dst b) := by
  simp [steps]

theorem exists_of_atOnce (src dst : β → α) (xs : List β) (x : α) :
    (∃ b ∈ xs, x = src b ∧ atOnce (steps src dst xs) x = dst b) ∨
    (∀ b ∈ xs, x ≠ src b) ∧ atOnce (steps src dst xs) x = x := by
  induction xs with
  | nil => exact .inr ⟨nofun, rfl⟩
  | cons b xs ih =>
    rw [steps, List.map_cons, atOnce]
    by_cases hx : x = src b
    · exact .inl ⟨b, List.mem_cons_self, hx, if_pos hx⟩
    · rw [if_neg hx]
      rcases ih with ⟨c, hc, hxc, he⟩ | ⟨hne, he⟩
      · exact .inl ⟨c, List.mem_cons_of_mem _ hc, hxc, he⟩
      · exact .inr ⟨fun c hc => (List.mem_cons.mp hc).elim (fun hcb => hcb ▸ hx) (hne c), he⟩

theorem atOnce_src (hsrc : (xs.map src).Nodup) {b : β} (hb : b ∈ xs) :
    atOnce (steps src dst xs) (src b) = dst b := by
  have hfst : (steps src dst xs).map Prod.fst = xs.map src := by simp [steps, Function.comp_def]
  exact atOnce_of_mem (p := (src b, dst b)) (hfst ▸ hsrc) (List.mem_map.mpr ⟨b, hb, rfl⟩)

/-- Onto the places of the detour and on from there is as good as at once. -/
theorem atOnce_via (hsrc : (xs.map src).Nodup) (hvia : (xs.map via).Nodup)
    (hfree : ∀ b ∈ xs, x ≠ via b) :
    atOnce (steps via dst xs) (atOnce (steps src via xs) x) = atOnce (steps src dst xs) x := by
  rcases exists_of_atOnce src via xs x with ⟨b, hb, rfl, he⟩ | ⟨hne, he⟩
  · rw [he, atOnce_src hvia hb, atOnce_src hsrc hb]
  · rw [he, atOnce_of_notMem (forall_steps.mpr hfree), atOnce_of_notMem (forall_steps.mpr hne)]

/-- Onto the places of the detour and back, in whatever order, is no move at all. -/
theorem atOnce_back {ys : List β} (hys : ∀ b, b ∈ ys ↔ b ∈ xs) (hvia : (ys.map via).Nodup)
    (hfree : ∀ b ∈ xs, x ≠ via b) :
    atOnce (steps via src ys) (atOnce (steps src via xs) x) = x := by
  rcases exists_of_atOnce src via xs x with ⟨b, hb, rfl, he⟩ | ⟨-, he⟩
  · rw [he, atOnce_src hvia ((hys b).mpr hb)]
  · rw [he, atOnce_of_notMem (forall_steps.mpr fun b hb => hfree b ((hys b).mp hb))]

end Detour

end Renaming
