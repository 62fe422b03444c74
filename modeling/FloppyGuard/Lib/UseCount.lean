import FloppyGuard.Lib.Table
import Mathlib.Logic.Function.Basic

/-! A map that counts users; a key nobody uses is not in it. -/
namespace UseCount

variable {κ : Type*} [DecidableEq κ] {t : Table κ ℕ} {n : κ → ℕ} {k : κ}

def enter (t : Table κ ℕ) (k : κ) : Table κ ℕ := t.set k ((t.get? k).getD 0 + 1)

/-- The map without one user, and whether that was the last one. -/
def leave (t : Table κ ℕ) (k : κ) : Table κ ℕ × Bool :=
  let left := (t.get? k).getD 0 - 1
  if 0 < left then (t.set k left, false) else (t.erase k, true)

/-- The map has the numbers, and no zeros. -/
def Counts (t : Table κ ℕ) (n : κ → ℕ) : Prop :=
  ∀ k, t.get? k = if n k = 0 then none else some (n k)

theorem Counts.getD (h : Counts t n) (k : κ) : (t.get? k).getD 0 = n k := by
  rw [h k]
  split
  · next hn => rw [hn]; rfl
  · rfl

theorem Counts.isSome (h : Counts t n) (k : κ) : (t.get? k).isSome = true ↔ n k ≠ 0 := by
  rw [h k]
  split
  · next hn => exact ⟨nofun, fun hne => absurd hn hne⟩
  · next hn => exact ⟨fun _ => hn, fun _ => rfl⟩

theorem Counts.enter (h : Counts t n) (k : κ) :
    Counts (enter t k) (Function.update n k (n k + 1)) := by
  intro k'
  rw [UseCount.enter, Table.get?_set, h.getD]
  by_cases hk : k' = k
  · subst hk
    rw [if_pos rfl, Function.update_self, if_neg (Nat.succ_ne_zero _)]
  · rw [if_neg hk, Function.update_of_ne hk, h k']

theorem Counts.leave_snd (h : Counts t n) (k : κ) : (leave t k).2 = decide (n k ≤ 1) := by
  unfold UseCount.leave
  dsimp only
  rw [h.getD]
  split
  · next hleft => exact (decide_eq_false (by omega)).symm
  · next hleft => exact (decide_eq_true (by omega)).symm

theorem Counts.leave (h : Counts t n) (k : κ) :
    Counts (leave t k).1 (Function.update n k (n k - 1)) := by
  intro k'
  unfold UseCount.leave
  dsimp only
  rw [h.getD]
  by_cases hk : k' = k
  · subst hk
    rw [Function.update_self]
    split
    · next hleft => rw [Table.get?_set, if_pos rfl, if_neg (by omega)]
    · next hleft => rw [Table.get?_erase, if_pos rfl, if_pos (by omega)]
  · rw [Function.update_of_ne hk]
    split
    · rw [Table.get?_set, if_neg hk, h k']
    · rw [Table.get?_erase, if_neg hk, h k']

end UseCount
