import Mathlib.Data.List.Basic
import Mathlib.Order.Lattice

/-! Keeping a shared table of entries in step with a set of keys: the wanted entries are added, a
key that is carried already only if the table lacks its entry; for each stale key one copy of its
entry is removed. Several keys may stand for one entry. -/
namespace Upkeep

variable {κ α : Type*} [DecidableEq α] {entry : κ → α} {carried : κ → Bool} {ks : List κ}
  {live : List α} {a : α}

def add (entry : κ → α) (carried : κ → Bool) (live : List α) (k : κ) : List α :=
  if carried k && decide (entry k ∈ live) then live else live ++ [entry k]

def drop (entry : κ → α) (live : List α) (k : κ) : List α := live.erase (entry k)

/-- How many of the keys stand for the entry. -/
def spellings (entry : κ → α) (ks : List κ) (a : α) : ℕ := ks.countP fun k => decide (entry k = a)

/-- Whether the first key that stands for the entry is carried already. -/
def firstCarried (entry : κ → α) (carried : κ → Bool) (ks : List κ) (a : α) : ℕ :=
  if (ks.find? fun k => decide (entry k = a)).any carried then 1 else 0

theorem firstCarried_le_one : firstCarried entry carried ks a ≤ 1 := by
  unfold firstCarried
  split <;> omega

/-- The copies there are once the wanted keys are added. -/
def copies (entry : κ → α) (carried : κ → Bool) (ks : List κ) (live : List α) (a : α) : ℕ :=
  spellings entry (ks.filter fun k => !carried k) a + max (live.count a)
    (firstCarried entry carried ks a)

theorem count_add (k : κ) : (add entry carried live k).count a =
    if entry k = a then
      (if carried k = true ∧ 0 < live.count a then live.count a else live.count a + 1)
    else live.count a := by
  unfold add
  by_cases hk : entry k = a
  · subst hk
    rw [if_pos rfl]
    by_cases hc : carried k = true ∧ entry k ∈ live
    · rw [if_pos (by simp [hc]), if_pos ⟨hc.1, List.count_pos_iff.mpr hc.2⟩]
    · rw [if_neg (by simpa using hc), if_neg (by simpa [List.count_pos_iff] using hc)]
      simp
  · rw [if_neg hk]
    split
    · rfl
    · simp [hk]

theorem count_foldl_add :
    (ks.foldl (add entry carried) live).count a = copies entry carried ks live a := by
  induction ks generalizing live with
  | nil => simp [copies, spellings, firstCarried]
  | cons k ks ih =>
    have hfirst : firstCarried entry carried ks a ≤ 1 := firstCarried_le_one
    rw [List.foldl_cons, ih, copies, copies, count_add]
    by_cases hk : entry k = a
    · by_cases hc : carried k = true
      · simp only [hk, if_true, hc, spellings, List.filter_cons, firstCarried, List.find?_cons,
          decide_true,
          Option.any_some, Bool.not_true, Bool.false_eq_true, if_false, true_and] at hfirst ⊢
        split <;> omega
      · simp only [hk, if_true, hc, spellings, List.filter_cons, firstCarried, List.find?_cons,
          decide_true,
          Option.any_some, Bool.not_false, Bool.false_eq_true, if_false, false_and,
            List.countP_cons] at hfirst ⊢
        omega
    · have hcount : spellings entry ((k :: ks).filter fun k => !carried k) a =
          spellings entry (ks.filter fun k => !carried k) a := by
        rw [spellings, spellings, List.filter_cons]
        split <;> simp [hk]
      have hsame : firstCarried entry carried (k :: ks) a = firstCarried entry carried ks a := by
        simp [firstCarried, hk]
      rw [hcount, hsame, if_neg hk]

theorem mem_foldl_add :
    a ∈ ks.foldl (add entry carried) live ↔ a ∈ live ∨ ∃ k ∈ ks, entry k = a := by
  induction ks generalizing live with
  | nil => simp
  | cons k ks ih =>
    have hadd : a ∈ add entry carried live k ↔ a ∈ live ∨ entry k = a := by
      unfold add
      split
      · next h =>
        obtain ⟨-, h⟩ := Bool.and_eq_true_iff.mp h
        exact ⟨.inl, fun ha => ha.elim id fun hk => hk ▸ of_decide_eq_true h⟩
      · simp [eq_comm]
    simp [ih, hadd, or_assoc]

theorem spellings_cons (k : κ) :
    spellings entry (k :: ks) a = spellings entry ks a + if entry k = a then 1 else 0 := by
  simp [spellings, List.countP_cons]

theorem count_foldl_drop :
    (ks.foldl (drop entry) live).count a = live.count a - spellings entry ks a := by
  induction ks generalizing live with
  | nil => rfl
  | cons k ks ih =>
    rw [List.foldl_cons, ih, drop, List.count_erase, spellings_cons]
    by_cases hk : entry k = a
    · simp only [hk, beq_self_eq_true, if_true]
      omega
    · simp [hk]

/-- The keys whose entry was there to remove. -/
def dropped (entry : κ → α) : List κ → List α → List κ
  | [], _ => []
  | k :: ks, live =>
    if entry k ∈ live then k :: dropped entry ks (live.erase (entry k)) else dropped entry ks live

theorem exists_dropped :
    (∃ k ∈ dropped entry ks live, entry k = a) ↔ a ∈ live ∧ ∃ k ∈ ks, entry k = a := by
  induction ks generalizing live with
  | nil => simp [dropped]
  | cons k ks ih =>
    unfold dropped
    by_cases hk : entry k = a
    · subst hk
      split
      · next hmem => simp [hmem]
      · next hmem => simp [ih, hmem]
    · split
      · simp [ih, hk, List.mem_erase_of_ne (Ne.symm hk)]
      · simp [ih, hk]

end Upkeep
