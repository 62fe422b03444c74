import Mathlib.Data.List.Basic

/-! Ranges of numbers, and the merging of ranges that overlap or touch. -/

/-- The numbers from `lo` to `hi`. -/
@[ext] structure Span where
  lo : ℕ
  hi : ℕ
  lo_le_hi : lo ≤ hi
deriving DecidableEq

namespace Span

variable {s t cur : Span} {xs : List Span} {n : ℕ}

instance membership : Membership ℕ Span := ⟨fun s n => s.lo ≤ n ∧ n ≤ s.hi⟩

theorem mem_iff : n ∈ s ↔ s.lo ≤ n ∧ n ≤ s.hi := Iff.rfl

/-- There is a gap before the second. -/
def Apart (s t : Span) : Prop := s.hi + 1 < t.lo

/-- One range for both, when the second starts in the first or right behind it. -/
def join (cur s : Span) : Span :=
  ⟨cur.lo, max cur.hi s.hi, Nat.le_trans cur.lo_le_hi (Nat.le_max_left _ _)⟩

theorem mem_join (hlo : cur.lo ≤ s.lo) (htouch : s.lo ≤ cur.hi + 1) :
    n ∈ cur.join s ↔ n ∈ cur ∨ n ∈ s := by
  rw [mem_iff, mem_iff, mem_iff, join]
  dsimp only
  have := s.lo_le_hi
  omega

/-- The ranges behind `cur` in the order of their starts. -/
def mergeFrom (cur : Span) : List Span → List Span
  | [] => [cur]
  | s :: rest => if s.lo ≤ cur.hi + 1 then mergeFrom (cur.join s) rest else cur :: mergeFrom s rest

def merge : List Span → List Span
  | [] => []
  | s :: rest => mergeFrom s rest

/-- The starts do not go down. -/
def Ordered (xs : List Span) : Prop := xs.Pairwise fun s t => s.lo ≤ t.lo

theorem Ordered.join (h : Ordered (cur :: s :: xs)) : Ordered (cur.join s :: xs) := by
  obtain ⟨hcur, hrest⟩ := List.pairwise_cons.mp h
  exact List.pairwise_cons.mpr ⟨fun t ht => hcur t (List.mem_cons_of_mem _ ht),
    (List.pairwise_cons.mp hrest).2⟩

theorem Ordered.tail (h : Ordered (cur :: xs)) : Ordered xs := (List.pairwise_cons.mp h).2

theorem Ordered.head (h : Ordered (cur :: s :: xs)) : cur.lo ≤ s.lo :=
  (List.pairwise_cons.mp h).1 s List.mem_cons_self

theorem lo_le_of_mem_mergeFrom (h : Ordered (cur :: xs)) (ht : t ∈ mergeFrom cur xs) :
    cur.lo ≤ t.lo := by
  induction xs generalizing cur with
  | nil => exact Nat.le_of_eq (congrArg lo (List.mem_singleton.mp ht).symm)
  | cons s rest ih =>
    unfold mergeFrom at ht
    split at ht
    · have hle : (cur.join s).lo ≤ t.lo := ih h.join ht
      exact hle
    · rcases List.mem_cons.mp ht with rfl | ht
      · exact Nat.le_refl _
      · exact Nat.le_trans h.head (ih h.tail ht)

/-- The merged ranges hold what the ranges held. -/
theorem mem_mergeFrom (h : Ordered (cur :: xs)) :
    (∃ t ∈ mergeFrom cur xs, n ∈ t) ↔ ∃ t ∈ cur :: xs, n ∈ t := by
  induction xs generalizing cur with
  | nil => exact Iff.rfl
  | cons s rest ih =>
    unfold mergeFrom
    split
    · next htouch =>
      rw [ih h.join, List.exists_mem_cons_iff, mem_join h.head htouch, List.exists_mem_cons_iff,
        List.exists_mem_cons_iff,
        or_assoc]
    · rw [List.exists_mem_cons_iff, ih h.tail, List.exists_mem_cons_iff _ cur]

theorem mergeFrom_apart (h : Ordered (cur :: xs)) : (mergeFrom cur xs).Pairwise Apart := by
  induction xs generalizing cur with
  | nil => exact List.pairwise_singleton _ _
  | cons s rest ih =>
    unfold mergeFrom
    split
    · exact ih h.join
    · next hgap =>
      refine List.pairwise_cons.mpr ⟨fun t ht => ?_, ih h.tail⟩
      exact Nat.lt_of_lt_of_le (Nat.not_le.mp hgap) (lo_le_of_mem_mergeFrom h.tail ht)

theorem mem_merge (h : Ordered xs) : (∃ t ∈ merge xs, n ∈ t) ↔ ∃ t ∈ xs, n ∈ t := by
  cases xs with
  | nil => exact Iff.rfl
  | cons s rest => exact mem_mergeFrom h

theorem merge_apart (h : Ordered xs) : (merge xs).Pairwise Apart := by
  cases xs with
  | nil => exact .nil
  | cons s rest => exact mergeFrom_apart h

/-- The ends stay below every bound. -/
theorem hi_lt_of_mem_mergeFrom {b : ℕ} (h : ∀ s ∈ cur :: xs, s.hi < b) :
    ∀ t ∈ mergeFrom cur xs, t.hi < b := by
  induction xs generalizing cur with
  | nil => exact h
  | cons s rest ih =>
    obtain ⟨hcur, hs, hrest⟩ : cur.hi < b ∧ s.hi < b ∧ ∀ t ∈ rest, t.hi < b := by
      rw [List.forall_mem_cons, List.forall_mem_cons] at h
      exact h
    unfold mergeFrom
    split
    · refine ih (List.forall_mem_cons.mpr ⟨?_, hrest⟩)
      exact Nat.max_lt.mpr ⟨hcur, hs⟩
    · exact List.forall_mem_cons.mpr ⟨hcur, ih (List.forall_mem_cons.mpr ⟨hs, hrest⟩)⟩

theorem hi_lt_of_mem_merge {b : ℕ} (h : ∀ s ∈ xs, s.hi < b) : ∀ t ∈ merge xs, t.hi < b := by
  cases xs with
  | nil => exact List.forall_mem_nil _
  | cons s rest => exact hi_lt_of_mem_mergeFrom h

end Span
