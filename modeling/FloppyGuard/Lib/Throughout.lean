import Mathlib.Data.List.Basic

/-! A property of every element of a list, each in the state that the elements before it lead to. -/

def Throughout {σ α : Type*} (f : σ → α → σ) (P : σ → α → Prop) (s : σ) (xs : List α) : Prop :=
  ∀ pre x post, xs = pre ++ x :: post → P (pre.foldl f s) x

namespace Throughout

variable {σ α β : Type*} {f : σ → α → σ} {P Q : σ → α → Prop} {s : σ} {x : α} {xs ys : List α}

theorem nil : Throughout f P s [] := by
  intro pre x post h
  exact absurd h (by simp)

theorem cons_iff : Throughout f P s (x :: xs) ↔ P s x ∧ Throughout f P (f s x) xs := by
  constructor
  · intro h
    refine ⟨h [] x xs rfl, ?_⟩
    rintro pre y post rfl
    exact h (x :: pre) y post rfl
  · rintro ⟨hx, hxs⟩ pre y post h
    cases pre with
    | nil =>
      obtain ⟨rfl, -⟩ := List.cons.inj h
      exact hx
    | cons z pre =>
      obtain ⟨rfl, hrest⟩ := List.cons.inj h
      exact hxs pre y post hrest

instance decidable [∀ s x, Decidable (P s x)] :
    ∀ (s : σ) (xs : List α), Decidable (Throughout f P s xs)
  | _, [] => isTrue nil
  | s, x :: xs =>
    have := decidable (f s x) xs
    decidable_of_iff' _ cons_iff

theorem mono (hPQ : ∀ s x, P s x → Q s x) (h : Throughout f P s xs) : Throughout f Q s xs :=
  fun pre x post he => hPQ _ _ (h pre x post he)

/-- Elements that look the same to the states and to the property. -/
theorem congr {g : α → β} (hf : ∀ s x y, g x = g y → f s x = f s y)
    (hP : ∀ s x y, g x = g y → (P s x ↔ P s y))
    (h : xs.map g = ys.map g) : Throughout f P s xs ↔ Throughout f P s ys := by
  induction xs generalizing s ys with
  | nil => rw [List.map_eq_nil_iff.mp h.symm]
  | cons x xs ih =>
    obtain ⟨y, ys, rfl, hy, hys⟩ := List.map_eq_cons_iff.mp h.symm
    rw [cons_iff, cons_iff, hP s x y hy.symm, hf s x y hy.symm, ih hys.symm]

/-- An element that leaves each state and has the property in it. -/
def Neutral (f : σ → α → σ) (P : σ → α → Prop) (x : α) : Prop := ∀ s, f s x = s ∧ P s x

/-- Neutral elements are left out and put in. -/
inductive Edited (f : σ → α → σ) (P : σ → α → Prop) : List α → List α → Prop
  | nil : Edited f P [] []
  | keep {xs ys : List α} (x : α) (h : Edited f P xs ys) : Edited f P (x :: xs) (x :: ys)
  | drop {xs ys : List α} {x : α} (hx : Neutral f P x) (h : Edited f P xs ys) : Edited f P (x :: xs)
      ys
  | add {xs ys : List α} {y : α} (hy : Neutral f P y) (h : Edited f P xs ys) : Edited f P xs
      (y :: ys)

namespace Edited

theorem refl : ∀ xs : List α, Edited f P xs xs
  | [] => .nil
  | x :: xs => .keep x (refl xs)

theorem insert (hys : ∀ y ∈ ys, Neutral f P y) (pre post : List α) :
    Edited f P (pre ++ post) (pre ++ (ys ++ post)) := by
  induction pre with
  | nil =>
    induction ys with
    | nil => exact refl post
    | cons y ys ih =>
      rw [List.forall_mem_cons] at hys
      exact .add hys.1 (ih hys.2)
  | cons x pre ih => exact .keep x ih

theorem throughout_iff (h : Edited f P xs ys) : Throughout f P s xs ↔ Throughout f P s ys := by
  induction h generalizing s with
  | nil => exact Iff.rfl
  | keep x _ ih => rw [cons_iff, cons_iff, ih]
  | drop hx _ ih => rw [cons_iff, (hx s).1, and_iff_right (hx s).2, ih]
  | add hy _ ih => rw [cons_iff, (hy s).1, and_iff_right (hy s).2, ih]

end Edited

end Throughout
