import Mathlib.Data.List.Nodup
import Mathlib.Logic.Function.Basic

/-! Updating the cells of a function one after the other. -/
namespace Cells

variable {ι α : Type*} [DecidableEq ι]

/-- `f` on each cell of the list, in order. -/
def onAll (f : ι → α → α) (is : List ι) (s : ι → α) : ι → α :=
  is.foldl (fun s i => Function.update s i (f i (s i))) s

variable {f : ι → α → α} {is : List ι} {s : ι → α} {i : ι}

@[simp] theorem onAll_cons : onAll f (i :: is) s = onAll f is (Function.update s i (f i (s i))) :=
  rfl

theorem onAll_of_notMem (h : i ∉ is) : onAll f is s i = s i := by
  induction is generalizing s with
  | nil => rfl
  | cons j is ih =>
    rw [onAll_cons, ih (List.not_mem_of_not_mem_cons h),
      Function.update_of_ne (List.ne_of_not_mem_cons h)]

/-- Distinct cells are updated independently. -/
theorem onAll_of_mem (hn : is.Nodup) (h : i ∈ is) : onAll f is s i = f i (s i) := by
  induction is generalizing s with
  | nil => simp at h
  | cons j is ih =>
    obtain ⟨hj, hn⟩ := List.nodup_cons.mp hn
    rw [onAll_cons]
    rcases List.mem_cons.mp h with rfl | h
    · rw [onAll_of_notMem hj, Function.update_self]
    · have hne : i ≠ j := fun he => hj (he ▸ h)
      rw [ih hn h, Function.update_of_ne hne]

end Cells
