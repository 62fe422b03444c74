import Mathlib.Data.List.Nodup

/-! A database table with an auto-incremented key, read in key order. -/

/-- Rows in the order of their keys; the next key is above all of them. -/
structure Rows (α : Type*) (key : α → ℕ) where
  rows : List α
  nextId : ℕ
  sorted : (rows.map key).Pairwise (· < ·)
  ids : ∀ r ∈ rows, 1 ≤ key r ∧ key r < nextId
  pos : 1 ≤ nextId

namespace Rows

variable {α : Type*} {key : α → ℕ} {t : Rows α key} {r q : α} {row : ℕ → α}
  {hrow : ∀ id, key (row id) = id}

def empty : Rows α key := ⟨[], 1, .nil, nofun, Nat.le_refl 1⟩

/-- Insert the row built from the next key. -/
def insert (t : Rows α key) (row : ℕ → α) (hrow : ∀ id, key (row id) = id) : Rows α key where
  rows := t.rows ++ [row t.nextId]
  nextId := t.nextId + 1
  sorted := by
    rw [List.map_append, List.pairwise_append]
    refine ⟨t.sorted, List.pairwise_singleton _ _, fun i hi j hj => ?_⟩
    obtain ⟨r, hr, rfl⟩ := List.mem_map.mp hi
    rw [List.mem_singleton.mp hj, hrow]
    exact (t.ids r hr).2
  ids := by
    intro r hr
    rcases List.mem_append.mp hr with hr | hr
    · exact ⟨(t.ids r hr).1, Nat.lt_succ_of_lt (t.ids r hr).2⟩
    · rw [List.mem_singleton.mp hr, hrow]
      exact ⟨t.pos, Nat.lt_succ_self _⟩
  pos := Nat.le_succ_of_le t.pos

/-- Rewrite the selected rows in place; a row keeps its key. -/
def patch (t : Rows α key) (selected : α → Bool) (change : α → α)
    (hid : ∀ r, key (change r) = key r) :
    Rows α key where
  rows := t.rows.map fun r => if selected r then change r else r
  nextId := t.nextId
  sorted := by
    have hmap : (t.rows.map fun r => if selected r then change r else r).map key =
        t.rows.map key := by
      rw [List.map_map]
      refine List.map_congr_left fun r _ => ?_
      dsimp only [Function.comp]
      split
      · exact hid r
      · rfl
    rw [hmap]
    exact t.sorted
  ids := by
    intro r hr
    obtain ⟨q, hq, rfl⟩ := List.mem_map.mp hr
    split
    · exact hid q ▸ t.ids q hq
    · exact t.ids q hq
  pos := t.pos

def delete (t : Rows α key) (id : ℕ) : Rows α key where
  rows := t.rows.filter (key · ≠ id)
  nextId := t.nextId
  sorted := t.sorted.sublist (List.filter_sublist.map _)
  ids := fun r hr => t.ids r (List.mem_filter.mp hr).1
  pos := t.pos

/-- The next key is taken by a row that is not in this view of the table. -/
def skip (t : Rows α key) : Rows α key where
  rows := t.rows
  nextId := t.nextId + 1
  sorted := t.sorted
  ids := fun r hr => ⟨(t.ids r hr).1, Nat.lt_succ_of_lt (t.ids r hr).2⟩
  pos := Nat.le_succ_of_le t.pos

theorem mem_insert : r ∈ (t.insert row hrow).rows ↔ r ∈ t.rows ∨ r = row t.nextId := by
  simp [insert]

/-- A key belongs to one row. -/
theorem eq_of_key_eq (hr : r ∈ t.rows) (hq : q ∈ t.rows) (h : key r = key q) : r = q :=
  List.inj_on_of_nodup_map (t.sorted.imp Nat.ne_of_lt) hr hq h

theorem eq_of_find {id : ℕ} (h : t.rows.find? (key · = id) = some q) (hr : r ∈ t.rows)
    (hid : key r = id) :
    r = q := by
  have hq : key q = id := by simpa using List.find?_some h
  exact eq_of_key_eq hr (List.mem_of_find?_eq_some h) (hid.trans hq.symm)

theorem find?_patch {id k : ℕ} {change : α → α} {hid : ∀ r, key (change r) = key r} :
    (t.patch (key · = k) change hid).rows.find? (key · = id) =
      (t.rows.find? (key · = id)).map fun r => if id = k then change r else r := by
  have hlist (xs : List α) : (xs.map fun r => if decide (key r = k) then change r else r).find?
    (key · = id) =
      (xs.find? (key · = id)).map fun r => if id = k then change r else r := by
    induction xs with
    | nil => rfl
    | cons r xs ih =>
      have hkey : key (if decide (key r = k) then change r else r) = key r := by
        split
        · exact hid r
        · rfl
      rw [List.map_cons, List.find?_cons, List.find?_cons, hkey]
      by_cases hr : key r = id
      · subst hr
        simp
      · simpa [hr] using ih
  exact hlist t.rows

/-- At most one row has a key. -/
theorem length_filter_key (t : Rows α key) (id : ℕ) : (t.rows.filter (key · = id)).length ≤ 1 := by
  have hcount := List.nodup_iff_count_le_one.mp (t.sorted.imp Nat.ne_of_lt) id
  rw [List.count_eq_countP, List.countP_map, List.countP_eq_length_filter] at hcount
  exact hcount

/-- Rewriting the row with a key adds at most that row to those that have a property. -/
theorem length_filter_patch (t : Rows α key) (id : ℕ) (change : α → α) (p : α → Bool) :
    ((t.rows.map fun r => if decide (key r = id) then change r else r).filter p).length ≤
      1 + (t.rows.filter fun r => decide (key r ≠ id) && p r).length := by
  have hlist (xs : List α) :
      ((xs.map fun r => if decide (key r = id) then change r else r).filter p).length ≤
        (xs.filter (key · = id)).length +
          (xs.filter fun r => decide (key r ≠ id) && p r).length := by
    induction xs with
    | nil => exact Nat.zero_le _
    | cons r xs ih =>
      simp only [List.map_cons, List.filter_cons, ne_eq] at ih ⊢
      by_cases hid : key r = id
      · simp only [hid, decide_true, if_true, not_true_eq_false, decide_false, Bool.false_and,
          Bool.false_eq_true, if_false, List.length_cons]
        split
        · rw [List.length_cons]
          omega
        · omega
      · simp only [hid, decide_false, Bool.false_eq_true, if_false, not_false_eq_true, decide_true,
          Bool.true_and]
        split
        · rw [List.length_cons, List.length_cons]
          omega
        · exact ih
  exact Nat.le_trans (hlist t.rows) (Nat.add_le_add_right (t.length_filter_key id) _)

end Rows
