import Mathlib.Data.List.Basic

/-! Entries that are removed by their numbers, from the last to the first. The numbers are taken
once, before the first removal; a mark says which entries they belong to. -/
namespace Numbered

variable {α : Type*} {m m' : List (α × Bool)} {k n : ℕ} {ns : List ℕ}

/-- Removes the entry with number `n`, counted from 1. -/
def delete (l : List α) (n : ℕ) : List α := l.eraseIdx (n - 1)

/-- The numbers of the marked entries, the last one first; the first entry has number `k`. -/
def numbers (k : ℕ) : List (α × Bool) → List ℕ
  | [] => []
  | x :: m => numbers (k + 1) m ++ if x.2 then [k] else []

def entries (m : List (α × Bool)) : List α := m.map Prod.fst

/-- What is left once the marked entries are gone. -/
def kept (m : List (α × Bool)) : List α := entries (m.filter fun x => !x.2)

theorem entries_append : entries (m ++ m') = entries m ++ entries m' := List.map_append

theorem numbers_append : numbers k (m ++ m') = numbers (k + m.length) m' ++ numbers k m := by
  induction m generalizing k with
  | nil => simp [numbers]
  | cons x m ih =>
    have hlen : k + 1 + m.length = k + (x :: m).length := by
      rw [List.length_cons]
      omega
    rw [List.cons_append, numbers, ih, hlen, numbers, List.append_assoc]

theorem le_of_mem_numbers (h : n ∈ numbers k m) : k ≤ n := by
  induction m generalizing k with
  | nil => cases h
  | cons x m ih =>
    rcases List.mem_append.mp h with h | h
    · have hle := ih h
      omega
    · split at h
      · exact Nat.le_of_eq (List.mem_singleton.mp h).symm
      · cases h

theorem numbers_eq_nil (h : ∀ x ∈ m, x.2 = false) : numbers k m = [] := by
  induction m generalizing k with
  | nil => rfl
  | cons x m ih =>
    have hx : x.2 = false := h x List.mem_cons_self
    rw [numbers, ih fun y hy => h y (List.mem_cons_of_mem _ hy), hx]
    rfl

theorem kept_of_unmarked (h : ∀ x ∈ m, x.2 = false) : kept m = entries m := by
  rw [kept, List.filter_eq_self.mpr fun x hx => by rw [h x hx]; rfl]

theorem unmarked_of_nil (h : numbers k m = []) : ∀ x ∈ m, x.2 = false := by
  intro x hx
  by_contra hmark
  have hmark : x.2 = true := by simpa using hmark
  obtain ⟨front, back, rfl⟩ := List.append_of_mem hx
  simp [numbers_append, numbers, hmark] at h

/-- The first number belongs to the last mark. -/
theorem split_of_numbers (h : numbers k m = n :: ns) :
    ∃ front x back, m = front ++ (x, true) :: back ∧
    (∀ y ∈ back, y.2 = false) ∧ n = k + front.length ∧ ns = numbers k front := by
  induction m generalizing k ns with
  | nil => cases h
  | cons y m ih =>
    rw [numbers] at h
    cases hrest : numbers (k + 1) m with
    | nil =>
      rw [hrest, List.nil_append] at h
      split at h
      · next hy =>
        obtain ⟨rfl, rfl⟩ := List.cons.inj h
        refine ⟨[], y.1, m, ?_, unmarked_of_nil hrest, rfl, rfl⟩
        rw [List.nil_append, ← hy]
      · cases h
    | cons n' ns' =>
      rw [hrest, List.cons_append] at h
      obtain ⟨rfl, rfl⟩ := List.cons.inj h
      obtain ⟨front, x, back, rfl, hback, rfl, rfl⟩ := ih hrest
      refine ⟨y :: front, x, back, rfl, hback, ?_, ?_⟩
      · rw [List.length_cons]
        omega
      · rw [numbers]

/-- One removal: what is there is one entry less, and the other numbers still belong to the marks
that are left. -/
theorem delete_head (hk : 0 < k) (h : numbers k m = n :: ns) (pre : List α)
    (hpre : pre.length + 1 = k) :
    ∃ m', delete (pre ++ entries m) n = pre ++ entries m' ∧ numbers k m' = ns ∧ kept m' = kept m ∧
    m'.Sublist m := by
  obtain ⟨front, x, back, rfl, hback, rfl, rfl⟩ := split_of_numbers h
  refine ⟨front ++ back, ?_, ?_, ?_, ?_⟩
  · have hidx : k + front.length - 1 = (pre ++ entries front).length := by
      simp only [List.length_append, entries, List.length_map]
      omega
    rw [delete, entries_append, ← List.append_assoc, hidx,
      List.eraseIdx_append_of_length_le (Nat.le_refl _), Nat.sub_self,
      entries_append, List.append_assoc]
    rfl
  · rw [numbers_append, numbers_eq_nil hback, List.nil_append]
  · simp [kept, entries]
  · exact List.Sublist.append (List.Sublist.refl _) (List.sublist_cons_self _ _)

/-- A removal that fails takes its mark away. -/
theorem skip_head (h : numbers k m = n :: ns) :
    ∃ m', entries m' = entries m ∧ numbers k m' = ns ∧ ∀ x ∈ m', x.2 = true → x ∈ m := by
  obtain ⟨front, x, back, rfl, hback, rfl, rfl⟩ := split_of_numbers h
  have hnone : ∀ y ∈ (x, false) :: back, y.2 = false := by
    intro y hy
    rcases List.mem_cons.mp hy with rfl | hy
    · rfl
    · exact hback y hy
  refine ⟨front ++ (x, false) :: back, ?_, ?_, ?_⟩
  · simp [entries]
  · rw [numbers_append, numbers_eq_nil hnone, List.nil_append]
  · intro y hy hmark
    rcases List.mem_append.mp hy with hy | hy
    · exact List.mem_append_left _ hy
    · rw [hnone y hy] at hmark
      cases hmark

/-- All removals, after the entries `pre` that are not numbered. -/
theorem delete_all (pre : List α) (hpre : pre.length + 1 = k) :
    (numbers k m).foldl delete (pre ++ entries m) = pre ++ kept m := by
  induction hns : numbers k m generalizing m with
  | nil => rw [List.foldl_nil, kept_of_unmarked (unmarked_of_nil hns)]
  | cons n ns ih =>
    obtain ⟨m', hdel, hnum, hkept, -⟩ := delete_head (by omega) hns pre hpre
    rw [List.foldl_cons, hdel, ih hnum, hkept]

/-- The marks without those whose removal fails. -/
def thin (done : ℕ → Bool) (k : ℕ) : List (α × Bool) → List (α × Bool)
  | [] => []
  | x :: m => (x.1, x.2 && done k) :: thin done (k + 1) m

theorem entries_thin (done : ℕ → Bool) : entries (thin done k m) = entries m := by
  induction m generalizing k with
  | nil => rfl
  | cons x m ih => exact congrArg (x.1 :: ·) ih

theorem numbers_thin (done : ℕ → Bool) : numbers k (thin done k m) = (numbers k m).filter done := by
  induction m generalizing k with
  | nil => rfl
  | cons x m ih =>
    rw [thin, numbers, ih, numbers, List.filter_append]
    cases hmark : x.2 <;> cases hdone : done k <;> simp [hdone]

/-- Removals some of which fail. -/
theorem delete_some (done : ℕ → Bool) :
    (numbers 1 m).foldl (fun l n => if done n then delete l n else l) (entries m) = kept
    (thin done 1 m) := by
  have hall := delete_all (m := thin done 1 m) [] (k := 1) rfl
  rw [numbers_thin, entries_thin, List.foldl_filter] at hall
  exact hall

/-- Entries that are only marked where `p` fails: those with `p` are all kept. -/
theorem filter_kept {p : α → Bool} (h : ∀ x ∈ m, x.2 = true → p x.1 = false) :
    (kept m).filter p = (entries m).filter p := by
  induction m with
  | nil => rfl
  | cons x m ih =>
    have hrest := ih fun y hy => h y (List.mem_cons_of_mem _ hy)
    have hcons : entries (x :: m) = x.1 :: entries m := rfl
    rw [hcons, List.filter_cons]
    cases hmark : x.2 with
    | true =>
      have hkept : kept (x :: m) = kept m := by simp [kept, hmark]
      rw [hkept, hrest, h x List.mem_cons_self hmark]
      rfl
    | false =>
      have hkept : kept (x :: m) = x.1 :: kept m := by simp [kept, entries, hmark]
      rw [hkept, List.filter_cons, hrest]

end Numbered
