import FloppyGuard.Lib.Spans
import Mathlib.Algebra.Order.Ring.Nat
import Mathlib.Data.Nat.Basic

/-! Blocks of numbers whose size is a power of two that divides their start, and the shortest lists
of them for given ranges. -/

@[ext] structure DyadicBlock where
  start : ℕ
  size : ℕ
  aligned : 2 ^ size ∣ start
deriving DecidableEq

namespace DyadicBlock

variable {a b c : DyadicBlock} {bs cs : List DyadicBlock} {lo hi m n : ℕ} {spans : List Span}

/-- The first number behind the block. -/
def next (b : DyadicBlock) : ℕ := b.start + 2 ^ b.size

instance membership : Membership ℕ DyadicBlock := ⟨fun b n => b.start ≤ n ∧ n < b.next⟩

theorem mem_iff : n ∈ b ↔ b.start ≤ n ∧ n < b.next := Iff.rfl

theorem start_lt_next : b.start < b.next := Nat.lt_add_of_pos_right (Nat.two_pow_pos _)

theorem start_mem : b.start ∈ b := ⟨Nat.le_refl _, start_lt_next⟩

/-- A block is the numbers with the quotient of its start. -/
theorem mem_iff_div : n ∈ b ↔ n / 2 ^ b.size = b.start / 2 ^ b.size := by
  obtain ⟨q, hq⟩ := b.aligned
  have hpos : 0 < 2 ^ b.size := Nat.two_pow_pos _
  rw [mem_iff, next, hq, Nat.mul_div_cancel_left q hpos, Nat.div_eq_iff hpos]
  rw [Nat.mul_comm q]
  omega

/-- Of two blocks with a common number the smaller lies in the other. -/
theorem mem_of_mem (ha : n ∈ a) (hb : n ∈ b) (hsize : a.size ≤ b.size) (hm : m ∈ a) : m ∈ b := by
  rw [mem_iff_div] at ha hb hm ⊢
  have hpow : 2 ^ b.size = 2 ^ a.size * 2 ^ (b.size - a.size) := by
    rw [← Nat.pow_add, Nat.add_sub_cancel' hsize]
  rw [hpow] at hb ⊢
  rw [← Nat.div_div_eq_div_mul, hm, ← ha, Nat.div_div_eq_div_mul]
  exact hb

/-- From the lowest number on the largest block that stays within the range, again and again. -/
inductive Greedy (hi : ℕ) : ℕ → List DyadicBlock → Prop
  | done {lo : ℕ} (h : hi < lo) : Greedy hi lo []
  | step {b : DyadicBlock} {bs : List DyadicBlock} (hfits : b.next ≤ hi + 1)
      (hlargest : ∀ c : DyadicBlock, c.start = b.start → c.next ≤ hi + 1 → c.size ≤ b.size)
      (hrest : Greedy hi b.next bs) : Greedy hi b.start (b :: bs)

theorem Greedy.mem (h : Greedy hi lo bs) : (∃ b ∈ bs, n ∈ b) ↔ lo ≤ n ∧ n ≤ hi := by
  induction h with
  | done h =>
    simp only [List.not_mem_nil, false_and, exists_false, false_iff]
    omega
  | @step b bs hfits _ _ ih =>
    rw [List.exists_mem_cons_iff, ih, mem_iff]
    have := start_lt_next (b := b)
    omega

/-- Each block lies before the next one. -/
theorem Greedy.pairwise (h : Greedy hi lo bs) : bs.Pairwise fun b c => b.next ≤ c.start := by
  induction h with
  | done h => exact .nil
  | @step b bs _ _ hrest ih =>
    refine List.pairwise_cons.mpr ⟨fun c hc => ?_, ih⟩
    exact (hrest.mem.mp ⟨c, hc, start_mem⟩).1

/-- No list of blocks for the same range is shorter. -/
theorem Greedy.length_le (h : Greedy hi lo bs) (hcs : ∀ n, (∃ c ∈ cs, n ∈ c) ↔ lo ≤ n ∧ n ≤ hi) :
    bs.length ≤ cs.length := by
  induction h generalizing cs with
  | done h => exact Nat.zero_le _
  | @step b bs hfits hlargest hrest ih =>
    have hin : ∀ c ∈ cs, ∀ n ∈ c, b.start ≤ n ∧ n ≤ hi := fun c hc n hn => (hcs n).mp ⟨c, hc, hn⟩
    -- a block that meets the first greedy one lies within it
    have hwithin : ∀ c ∈ cs, ∀ m ∈ c, m ∈ b → ∀ n ∈ c, n ∈ b := by
      intro c hc m hm hmb n hn
      rcases Nat.le_total c.size b.size with hsize | hsize
      · exact mem_of_mem hm hmb hsize hn
      · have hstart : c.start = b.start :=
          Nat.le_antisymm (mem_of_mem hmb hm hsize start_mem).1 (hin c hc _ start_mem).1
        have hlast : c.next - 1 ∈ c := by
          have := start_lt_next (b := c)
          rw [mem_iff]
          omega
        have hle : c.next ≤ hi + 1 := by
          have := (hin c hc _ hlast).2
          omega
        exact mem_of_mem hm hmb (hlargest c hstart hle) hn
    obtain ⟨first, hfirst, hmem⟩ : ∃ c ∈ cs, b.start ∈ c := by
      refine (hcs _).mpr ⟨Nat.le_refl _, ?_⟩
      have := start_lt_next (b := b)
      omega
    -- the others cover what is left
    have hothers : ∀ n, (∃ c ∈ cs.filter fun c => decide (b.next ≤ c.start), n ∈ c) ↔ b.next ≤ n ∧
        n ≤ hi := by
      intro n
      constructor
      · rintro ⟨c, hc, hn⟩
        obtain ⟨hc, hnext⟩ := List.mem_filter.mp hc
        exact ⟨Nat.le_trans (of_decide_eq_true hnext) hn.1, (hin c hc n hn).2⟩
      · rintro ⟨hnext, hn⟩
        have hstart := start_lt_next (b := b)
        obtain ⟨c, hc, hmem⟩ := (hcs n).mpr ⟨by omega, hn⟩
        refine ⟨c, List.mem_filter.mpr ⟨hc, decide_eq_true ?_⟩, hmem⟩
        by_contra hlt
        have hcb : c.start ∈ b := ⟨(hin c hc _ start_mem).1, Nat.not_le.mp hlt⟩
        exact Nat.not_le.mpr (hwithin c hc _ start_mem hcb n hmem).2 hnext
    have hshorter : (cs.filter fun c => decide (b.next ≤ c.start)).length < cs.length := by
      rw [List.length_filter_lt_length_iff_exists]
      refine ⟨first, hfirst, fun hdec => ?_⟩
      have hnext : b.next ≤ first.start := of_decide_eq_true hdec
      have hle := hmem.1
      have := start_lt_next (b := b)
      omega
    exact Nat.lt_of_le_of_lt (ih hothers) hshorter

section Ranges

variable {greedy : Span → List DyadicBlock}

theorem mem_flatMap (hgreedy : ∀ s ∈ spans, Greedy s.hi s.lo (greedy s)) :
    (∃ b ∈ spans.flatMap greedy, n ∈ b) ↔ ∃ s ∈ spans, n ∈ s := by
  constructor
  · rintro ⟨b, hb, hn⟩
    obtain ⟨s, hs, hb⟩ := List.mem_flatMap.mp hb
    exact ⟨s, hs, (hgreedy s hs).mem.mp ⟨b, hb, hn⟩⟩
  · rintro ⟨s, hs, hn⟩
    obtain ⟨b, hb, hmem⟩ := (hgreedy s hs).mem.mpr hn
    exact ⟨b, List.mem_flatMap.mpr ⟨s, hs, hb⟩, hmem⟩

/-- The blocks of ranges with gaps between them lie one behind the other. -/
theorem pairwise_flatMap (hgreedy : ∀ s ∈ spans, Greedy s.hi s.lo (greedy s))
    (hapart : spans.Pairwise Span.Apart) :
    (spans.flatMap greedy).Pairwise fun b c => b.next ≤ c.start := by
  induction spans with
  | nil => exact .nil
  | cons s spans ih =>
    obtain ⟨hs, hspans⟩ := List.pairwise_cons.mp hapart
    rw [List.forall_mem_cons] at hgreedy
    rw [List.flatMap_cons, List.pairwise_append]
    refine ⟨hgreedy.1.pairwise, ih hgreedy.2 hspans, fun b hb c hc => ?_⟩
    obtain ⟨t, ht, hc⟩ := List.mem_flatMap.mp hc
    have hgap := hs t ht
    have hlast : b.next - 1 ∈ b := by
      have := start_lt_next (b := b)
      rw [mem_iff]
      omega
    have hle := (hgreedy.1.mem.mp ⟨b, hb, hlast⟩).2
    have hge := ((hgreedy.2 t ht).mem.mp ⟨c, hc, start_mem⟩).1
    unfold Span.Apart at hgap
    omega

/-- No list of blocks for the same numbers is shorter than the greedy ones for ranges with gaps
between them. -/
theorem length_flatMap_le (hgreedy : ∀ s ∈ spans, Greedy s.hi s.lo (greedy s))
    (hapart : spans.Pairwise Span.Apart) (hcs : ∀ n, (∃ c ∈ cs, n ∈ c) ↔ ∃ s ∈ spans, n ∈ s) :
    (spans.flatMap greedy).length ≤ cs.length := by
  induction spans generalizing cs with
  | nil => exact Nat.zero_le _
  | cons s spans ih =>
    obtain ⟨hs, hspans⟩ := List.pairwise_cons.mp hapart
    rw [List.forall_mem_cons] at hgreedy
    have hin : ∀ c ∈ cs, ∀ n ∈ c, n ∈ s ∨ ∃ t ∈ spans, n ∈ t := fun c hc n hn =>
      List.exists_mem_cons_iff _ _ _ |>.mp ((hcs n).mp ⟨c, hc, hn⟩)
    -- the number behind the first range is in no range
    have hgap : ∀ c ∈ cs, s.hi + 1 ∉ c := by
      intro c hc hmem
      rcases hin c hc _ hmem with hmem | ⟨t, ht, hmem⟩
      · have := hmem.2
        omega
      · exact Nat.not_le.mpr (hs t ht) hmem.1
    have hside : ∀ c ∈ cs, ∀ n ∈ c, c.start ≤ s.hi ↔ n ≤ s.hi := by
      intro c hc n hn
      refine ⟨fun hle => ?_, fun hle => Nat.le_trans hn.1 hle⟩
      by_contra hlt
      exact hgap c hc ⟨Nat.le_succ_of_le hle, Nat.lt_of_le_of_lt (Nat.not_le.mp hlt) hn.2⟩
    have hbehind : ∀ t ∈ spans, ∀ n ∈ t, s.hi < n := fun t ht n hn =>
      Nat.lt_of_lt_of_le (Nat.lt_of_succ_lt (hs t ht)) hn.1
    have hfirst : ∀ n, (∃ c ∈ cs.filter fun c => decide (c.start ≤ s.hi), n ∈ c) ↔ s.lo ≤ n ∧
        n ≤ s.hi := by
      intro n
      constructor
      · rintro ⟨c, hc, hn⟩
        obtain ⟨hc, hle⟩ := List.mem_filter.mp hc
        rcases hin c hc n hn with hmem | ⟨t, ht, hmem⟩
        · exact hmem
        · exact absurd ((hside c hc n hn).mp (of_decide_eq_true hle))
            (Nat.not_le.mpr (hbehind t ht n hmem))
      · intro hn
        obtain ⟨c, hc, hmem⟩ := (hcs n).mpr ⟨s, List.mem_cons_self, hn⟩
        exact ⟨c, List.mem_filter.mpr ⟨hc, decide_eq_true ((hside c hc n hmem).mpr hn.2)⟩, hmem⟩
    have hrest : ∀ n, (∃ c ∈ cs.filter fun c => !decide (c.start ≤ s.hi), n ∈ c) ↔ ∃ t ∈ spans,
        n ∈ t := by
      intro n
      constructor
      · rintro ⟨c, hc, hn⟩
        obtain ⟨hc, hle⟩ := List.mem_filter.mp hc
        rcases hin c hc n hn with hmem | hmem
        · have hstart := (hside c hc n hn).mpr hmem.2
          simp [hstart] at hle
        · exact hmem
      · rintro ⟨t, ht, hn⟩
        obtain ⟨c, hc, hmem⟩ := (hcs n).mpr ⟨t, List.mem_cons_of_mem _ ht, hn⟩
        have hstart : ¬c.start ≤ s.hi := by
          rw [hside c hc n hmem]
          exact Nat.not_le.mpr (hbehind t ht n hn)
        exact ⟨c, List.mem_filter.mpr ⟨hc, by simp [hstart]⟩, hmem⟩
    have hlen := List.length_eq_length_filter_add (l := cs) fun c => decide (c.start ≤ s.hi)
    rw [List.flatMap_cons, List.length_append, hlen]
    exact Nat.add_le_add (hgreedy.1.length_le hfirst) (ih hgreedy.2 hspans hrest)

end Ranges

/-- Blocks one behind the other have no common number. -/
theorem not_mem_both (h : b.next ≤ c.start) : ¬(n ∈ b ∧ n ∈ c) := by
  rw [mem_iff, mem_iff]
  omega

end DyadicBlock
