import Mathlib.Data.List.Sort

/-! First-match rule chains: a packet is decided by the first line it hits. -/
namespace Chain

variable {ρ π τ α : Type*} {hits : ρ → π → Bool} {chain xs ys : List ρ} {p : π} {l : ρ} {t : τ}

def first (hits : ρ → π → Bool) (chain : List ρ) (p : π) : Option ρ := chain.find? (hits · p)

/-- Some line of the chain takes the packet. -/
def Hit (hits : ρ → π → Bool) (chain : List ρ) (p : π) : Prop := ∃ l ∈ chain, hits l p = true

theorem first_append : first hits (xs ++ ys) p = (first hits xs p).or (first hits ys p) :=
  List.find?_append

theorem first_eq_none : first hits chain p = none ↔ ¬ Hit hits chain p := by
  simp [first, Hit]

theorem first_mem (h : first hits chain p = some l) : l ∈ chain := List.mem_of_find?_eq_some h

theorem exists_first (h : Hit hits chain p) : ∃ l, first hits chain p = some l := by
  cases hf : first hits chain p with
  | none => exact absurd h (first_eq_none.mp hf)
  | some l => exact ⟨l, rfl⟩

theorem hit_append : Hit hits (xs ++ ys) p ↔ Hit hits xs p ∨ Hit hits ys p := by
  simp [Hit, or_and_right, exists_or]

theorem hit_flatMap {as : List α} {f : α → List ρ} :
    Hit hits (as.flatMap f) p ↔ ∃ a ∈ as, Hit hits (f a) p := by
  simp only [Hit, List.mem_flatMap]
  constructor
  · rintro ⟨l, ⟨a, ha, hl⟩, h⟩
    exact ⟨a, ha, l, hl, h⟩
  · rintro ⟨a, ha, l, hl, h⟩
    exact ⟨l, ⟨a, ha, hl⟩, h⟩

/-- Where the lines of each group carry the group's tag, the first line hit shows
the first group hit. -/
theorem map_first_flatMap {as : List α} {f : α → List ρ} {tag : ρ → τ} {key : α → τ}
    (hk : ∀ a ∈ as, ∀ l ∈ f a, tag l = key a) {hit : α → Bool}
    (hh : ∀ a ∈ as, hit a = true ↔ Hit hits (f a) p) :
    (first hits (as.flatMap f) p).map tag = (as.find? hit).map key := by
  induction as with
  | nil => rfl
  | cons a as ih =>
    have ih := ih (fun b hb => hk b (by simp [hb])) (fun b hb => hh b (by simp [hb]))
    rw [List.flatMap_cons, first_append, List.find?_cons]
    by_cases h : Hit hits (f a) p
    · obtain ⟨l, hl⟩ := exists_first h
      rw [(hh a (by simp)).mpr h, hl]
      simp [hk a (by simp) l (first_mem hl)]
    · have hfalse : hit a = false := Bool.eq_false_iff.mpr fun ht => h ((hh a (by simp)).mp ht)
      rw [first_eq_none.mpr h, hfalse, Option.none_or]
      exact ih

/-! The lines of a chain are sorted before or after some of them are left out. -/
section Order
variable {r : ρ → ρ → Prop} [DecidableRel r] {q : ρ → Bool} {a : ρ}

theorem orderedInsert_of_forall (h : ∀ b ∈ xs, r a b) : xs.orderedInsert r a = a :: xs := by
  cases xs with
  | nil => rfl
  | cons b xs => exact List.orderedInsert_cons_of_le r xs (h b (by simp))

theorem filter_orderedInsert_neg (ha : q a = false) :
    (xs.orderedInsert r a).filter q = xs.filter q := by
  induction xs with
  | nil => simp [ha]
  | cons b xs ih =>
    rw [List.orderedInsert_cons]
    split
    · simp [ha]
    · simp only [List.filter_cons, ih]

theorem filter_orderedInsert_pos [IsTrans ρ r] (ha : q a = true) (hs : xs.Pairwise r) :
    (xs.orderedInsert r a).filter q = (xs.filter q).orderedInsert r a := by
  induction xs with
  | nil => simp [ha]
  | cons b xs ih =>
    have hb := List.pairwise_cons.mp hs
    by_cases h : r a b
    · have hall : ∀ c ∈ (b :: xs).filter q, r a c := by
        intro c hc
        rcases List.mem_cons.mp (List.mem_of_mem_filter hc) with rfl | hc
        · exact h
        · exact IsTrans.trans a b c h (hb.1 c hc)
      rw [orderedInsert_of_forall hall, List.orderedInsert_cons_of_le r xs h, List.filter_cons,
        if_pos ha]
    · rw [List.orderedInsert_of_not_le r xs h, List.filter_cons, List.filter_cons, ih hb.2]
      cases q b with
      | true => simp [h]
      | false => rfl

/-- Sorting by insertion is stable, so it commutes with leaving lines out. -/
theorem filter_insertionSort [IsTrans ρ r] [Std.Total r] (xs : List ρ) :
    (xs.insertionSort r).filter q = (xs.filter q).insertionSort r := by
  induction xs with
  | nil => rfl
  | cons a xs ih =>
    rw [List.insertionSort_cons, List.filter_cons]
    cases ha : q a with
    | true => rw [filter_orderedInsert_pos ha (List.pairwise_insertionSort r xs), ih]; rfl
    | false => rw [filter_orderedInsert_neg ha, ih]; rfl

end Order

end Chain
