import Mathlib.Data.Option.Basic

/-! Writing a record through an earlier copy of it. -/

/-- A write: the fields it is to set, and the fields it takes over from a copy. -/
structure Overwrite (φ ν : Type*) where
  sets : φ → Option ν
  copies : φ → Bool
  copy : φ → ν

namespace Overwrite

variable {φ ν : Type*} {w : Overwrite φ ν} {r r' : φ → ν} {f : φ} {v : ν}

def apply (w : Overwrite φ ν) (r : φ → ν) : φ → ν :=
  fun f => (w.sets f).getD (if w.copies f then w.copy f else r f)

/-- The record with what the write is to set, and nothing else. -/
def setOnly (w : Overwrite φ ν) (r : φ → ν) : φ → ν := fun f => (w.sets f).getD (r f)

/-- What the write takes over is still in the record. -/
def Fresh (w : Overwrite φ ν) (r : φ → ν) : Prop :=
  ∀ f, w.sets f = none → w.copies f = true → w.copy f = r f

theorem setOnly_of_sets (h : w.sets f = some v) : w.setOnly r f = v := by
  rw [setOnly, h, Option.getD_some]

theorem setOnly_of_not_sets (h : w.sets f = none) : w.setOnly r f = r f := by
  rw [setOnly, h, Option.getD_none]

theorem apply_of_sets (h : w.sets f = some v) : w.apply r f = v := by
  rw [apply, h, Option.getD_some]

theorem apply_of_not_sets (h : w.sets f = none) :
    w.apply r f = if w.copies f then w.copy f else r f := by
  rw [apply, h, Option.getD_none]

/-- A write changes nothing else exactly if its copy is fresh. -/
theorem apply_eq_setOnly : w.apply r = w.setOnly r ↔ w.Fresh r := by
  constructor
  · intro h f hsets hcopies
    have hf := congrFun h f
    rw [apply_of_not_sets hsets, if_pos hcopies, setOnly_of_not_sets hsets] at hf
    exact hf
  · intro h
    funext f
    cases hsets : w.sets f with
    | some v => rw [apply_of_sets hsets, setOnly_of_sets hsets]
    | none =>
      rw [apply_of_not_sets hsets, setOnly_of_not_sets hsets]
      split
      · next hcopies => exact h f hsets hcopies
      · rfl

end Overwrite
