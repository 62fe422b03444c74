import Mathlib.Logic.Function.Basic

/-! A store that calls keep in step with another: each entry is right, or owed by a call under way.
-/
namespace Mirror

variable {κ ι γ : Type*}

/-- Some call other than `i` owes the entry. -/
def Others (owes : γ → κ → Prop) (calls : ι → Option γ) (i : ι) (x : κ) : Prop :=
  ∃ j c, j ≠ i ∧ calls j = some c ∧ owes c x

/-- The call owes the entry. -/
def Owed (owes : γ → κ → Prop) (call : Option γ) (x : κ) : Prop := ∃ c, call = some c ∧ owes c x

def Kept (good : κ → Prop) (owes : γ → κ → Prop) (calls : ι → Option γ) : Prop :=
  ∀ x, good x ∨ ∃ i, Owed owes (calls i) x

variable {good good' : κ → Prop} {owes owes' : γ → κ → Prop} {calls : ι → Option γ} {i : ι} {x : κ}
  {call : Option γ}

theorem Others.mono (h : Others owes calls i x)
    (hi : ∀ j c, j ≠ i → calls j = some c → owes c x → owes' c x) :
    Others owes' calls i x := by
  obtain ⟨j, c, hne, hc, ho⟩ := h
  exact ⟨j, c, hne, hc, hi j c hne hc ho⟩

/-- When no call is left, every entry is right. -/
theorem Kept.all_good (h : Kept good owes calls) (hnone : ∀ i, calls i = none) (x : κ) :
    good x := by
  rcases h x with hr | ⟨i, c, hc, -⟩
  · exact hr
  · rw [hnone i] at hc
    cases hc

variable [DecidableEq ι]

/-- The step of one call: an entry that was right, or owed, is so again. -/
theorem Kept.step (h : Kept good owes calls)
    (hi : ∀ x, good x ∨ Others owes calls i x ∨ Owed owes (calls i) x →
      good' x ∨ Others owes' calls i x ∨ Owed owes' call x) :
    Kept good' owes' (Function.update calls i call) := by
  intro x
  have hx : good x ∨ Others owes calls i x ∨ Owed owes (calls i) x := by
    rcases h x with hr | ⟨j, c, hc, ho⟩
    · exact Or.inl hr
    · rcases eq_or_ne j i with rfl | hne
      · exact Or.inr (Or.inr ⟨c, hc, ho⟩)
      · exact Or.inr (Or.inl ⟨j, c, hne, hc, ho⟩)
  rcases hi x hx with hr | ⟨j, c, hne, hc, ho⟩ | ho
  · exact Or.inl hr
  · refine Or.inr ⟨j, c, ?_, ho⟩
    rw [Function.update_of_ne hne, hc]
  · refine Or.inr ⟨i, ?_⟩
    rw [Function.update_self]
    exact ho

/-- A step that writes neither store. -/
theorem Kept.move (h : Kept good owes calls) (hi : ∀ x, Owed owes (calls i) x → Owed owes call x) :
    Kept good owes (Function.update calls i call) :=
  h.step fun x hx => hx.imp id fun ho => ho.imp id (hi x)

end Mirror
