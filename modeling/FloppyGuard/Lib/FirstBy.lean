import Mathlib.Data.List.Nodup

/-! A list without the elements whose key came before. -/

variable {α β : Type*} [DecidableEq β] {f : α → β} {xs ys : List α} {a : α} {b : β} {p : α → Bool}

/-- The first of several elements with one key stays. -/
def firstBy (f : α → β) : List α → List α
  | [] => []
  | a :: xs => a :: (firstBy f xs).filter (f · ≠ f a)

namespace FirstBy

theorem sublist (f : α → β) (xs : List α) : (firstBy f xs).Sublist xs := by
  induction xs with
  | nil => exact .slnil
  | cons a xs ih => exact (List.filter_sublist.trans ih).cons_cons a

theorem mem_map : b ∈ (firstBy f xs).map f ↔ b ∈ xs.map f := by
  induction xs with
  | nil => rfl
  | cons a xs ih =>
    have hrest : b ∈ ((firstBy f xs).filter (f · ≠ f a)).map f ↔ b ≠ f a ∧ b ∈ xs.map f := by
      rw [← ih]
      constructor
      · intro h
        obtain ⟨c, hc, rfl⟩ := List.mem_map.mp h
        obtain ⟨hc, hne⟩ := List.mem_filter.mp hc
        exact ⟨of_decide_eq_true hne, List.mem_map_of_mem hc⟩
      · rintro ⟨hne, h⟩
        obtain ⟨c, hc, rfl⟩ := List.mem_map.mp h
        exact List.mem_map_of_mem (List.mem_filter.mpr ⟨hc, decide_eq_true hne⟩)
    rw [firstBy, List.map_cons, List.map_cons, List.mem_cons, List.mem_cons, hrest]
    by_cases he : b = f a
    · simp [he]
    · simp [he]

theorem nodup (f : α → β) (xs : List α) : ((firstBy f xs).map f).Nodup := by
  induction xs with
  | nil => exact List.nodup_nil
  | cons a xs ih =>
    rw [firstBy, List.map_cons, List.nodup_cons]
    constructor
    · intro h
      obtain ⟨c, hc, he⟩ := List.mem_map.mp h
      exact of_decide_eq_true (List.mem_filter.mp hc).2 he
    · exact ih.sublist (List.filter_sublist.map f)

theorem append (xs ys : List α) :
    firstBy f (xs ++ ys) = firstBy f xs ++ (firstBy f ys).filter (f · ∉ xs.map f) := by
  induction xs with
  | nil => simp [firstBy]
  | cons a xs ih =>
    rw [List.cons_append, firstBy, ih, firstBy, List.filter_append, List.filter_filter,
      List.cons_append]
    refine congrArg _ (congrArg _ (List.filter_congr fun c _ => ?_))
    by_cases he : f c = f a
    · simp [he]
    · simp [he]

end FirstBy
