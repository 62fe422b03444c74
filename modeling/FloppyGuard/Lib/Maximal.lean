import Mathlib.Data.List.Nodup

/-! The elements of a list that no other element of it is above. -/

variable {α : Type*} [DecidableEq α] {r : α → α → Prop} [DecidableRel r] {xs ys : List α} {a b : α}

def maximal (r : α → α → Prop) [DecidableRel r] (xs : List α) : List α :=
  xs.filter fun a => !xs.any fun b => decide (b ≠ a) && decide (r b a)

namespace Maximal

theorem mem_iff : a ∈ maximal r xs ↔ a ∈ xs ∧ ∀ b ∈ xs, r b a → b = a := by
  simp only [maximal, List.mem_filter, Bool.not_eq_true', List.any_eq_false, Bool.and_eq_true,
    decide_eq_true_eq, not_and]
  refine and_congr_right fun _ => forall₂_congr fun b _ => ?_
  exact ⟨fun h hr => by_contra fun hne => h hne hr, fun h hne hr => hne (h hr)⟩

theorem nodup (h : xs.Nodup) : (maximal r xs).Nodup := h.filter _

/-- Where going up lowers a rank, every element is below one that stays. -/
theorem exists_above (rank : α → ℕ) (hrefl : ∀ a, r a a) (htrans : ∀ a b c, r a b → r b c → r a c)
    (hrank : ∀ a b, r b a → b ≠ a → rank b < rank a) (ha : a ∈ xs) : ∃ b ∈ maximal r xs, r b a := by
  induction hn : rank a using Nat.strongRecOn generalizing a with
  | ind n ih =>
    by_cases hmax : ∀ b ∈ xs, r b a → b = a
    · exact ⟨a, mem_iff.mpr ⟨ha, hmax⟩, hrefl a⟩
    · push Not at hmax
      obtain ⟨b, hb, hba, hne⟩ := hmax
      obtain ⟨c, hc, hcb⟩ := ih (rank b) (hn ▸ hrank a b hba hne) hb rfl
      exact ⟨c, hc, htrans c b a hcb hba⟩

/-- A list between the elements that stay and the whole list keeps the same ones. -/
theorem mem_congr (hup : ∀ a ∈ xs, ∃ b ∈ maximal r xs, r b a) (hin : ∀ a ∈ maximal r xs, a ∈ ys)
    (hsub : ∀ a ∈ ys, a ∈ xs) :
    a ∈ maximal r ys ↔ a ∈ maximal r xs := by
  constructor
  · intro h
    obtain ⟨ha, hmax⟩ := mem_iff.mp h
    obtain ⟨b, hb, hba⟩ := hup a (hsub a ha)
    exact hmax b (hin b hb) hba ▸ hb
  · intro h
    exact mem_iff.mpr ⟨hin a h, fun b hb => (mem_iff.mp h).2 b (hsub b hb)⟩

end Maximal
