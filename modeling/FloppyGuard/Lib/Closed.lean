import FloppyGuard.Lib.Statements
import Mathlib.Algebra.Order.Group.Int
import Mathlib.Tactic.Ring

/-! Texts that begin and end between two statements, how they are put together, and the words that
nothing ends early. -/
namespace Statements

variable {d : Dialect} {r : Reader} {ss ts : List Statement} {text x y w s : List Char} {c : Char}
  {t : Token} {b : ℤ}
  {v e : Bool} {p : List Char} {k l j : ℕ}

/-! A reader on a text, and the blocks that are opened and closed meanwhile. -/

def Reader.feed (d : Dialect) (r : Reader) (text : List Char) : Reader :=
  text.foldl (Reader.step d) r

/-- A brace that is read as such opens or closes a block. -/
def brace (c : Char) : ℤ := if c = '{' then 1 else if c = '}' then -1 else 0

def opens (d : Dialect) : Phase → Char → ℤ
  | .between, c => if d.space c then 0 else brace c
  | .bare v false _, c => if d.ends v c && !d.space c then brace c else 0
  | .comment, _ | .quoted .., _ | .bare _ true _, _ => 0

/-- The blocks opened in a text less the ones closed. -/
def Reader.depth (d : Dialect) : Reader → List Char → ℤ
  | _, [] => 0
  | r, c :: text => opens d r.phase c + (r.step d c).depth d text

/-- The least depth on the way through a text. -/
def Reader.low (d : Dialect) : Reader → List Char → ℤ
  | _, [] => 0
  | r, c :: text => min 0 (opens d r.phase c + (r.step d c).low d text)

/-- No block is opened or closed in the text. -/
def Reader.Flat (d : Dialect) : Reader → List Char → Prop
  | _, [] => True
  | r, c :: text => opens d r.phase c = 0 ∧ (r.step d c).Flat d text

def Reader.decideFlat (d : Dialect) : (r : Reader) → (text : List Char) → Decidable (r.Flat d text)
  | _, [] => inferInstanceAs (Decidable True)
  | r, c :: text =>
    have := decideFlat d (r.step d c) text
    inferInstanceAs (Decidable (_ ∧ _))

instance : Decidable (r.Flat d text) := r.decideFlat d text

theorem feed_append (r : Reader) (x y : List Char) : r.feed d (x ++ y) = (r.feed d x).feed d y :=
  List.foldl_append

theorem feed_cons (r : Reader) (c : Char) (x : List Char) :
    r.feed d (c :: x) = (r.step d c).feed d x := rfl

theorem depth_append (r : Reader) (x y : List Char) :
    r.depth d (x ++ y) = r.depth d x + (r.feed d x).depth d y := by
  induction x generalizing r with
  | nil => exact (Int.zero_add _).symm
  | cons c x ih =>
    rw [List.cons_append, Reader.depth, Reader.depth, ih, feed_cons, Int.add_assoc]

/-- The least depth is a bound for the depth of every beginning of the text, and the best one. -/
theorem le_low_iff : b ≤ r.low d text ↔ ∀ p, p <+: text → b ≤ r.depth d p := by
  induction text generalizing r b with
  | nil =>
    constructor
    · intro h p hp
      rw [List.prefix_nil.mp hp]
      exact h
    · intro h
      exact h [] (List.nil_prefix)
  | cons c text ih =>
    have hle : b ≤ r.low d (c :: text) ↔
        b ≤ 0 ∧ b - opens d r.phase c ≤ (r.step d c).low d text := by
      rw [Reader.low]
      omega
    rw [hle, ih]
    constructor
    · rintro ⟨hzero, hrest⟩ p hp
      cases p with
      | nil => exact hzero
      | cons a p =>
        obtain ⟨rfl, htail⟩ := List.cons_prefix_cons.mp hp
        have hle := hrest p htail
        rw [Reader.depth]
        omega
    · intro h
      refine ⟨h [] List.nil_prefix, fun p hp => ?_⟩
      have hp := h (c :: p) (List.cons_prefix_cons.mpr ⟨rfl, hp⟩)
      rw [Reader.depth] at hp
      omega

def Reader.after (ss : List Statement) (r : Reader) : Reader :=
  { r with statements := ss ++ r.statements }

theorem after_endStatement (ss : List Statement) (r : Reader) :
    (r.after ss).endStatement = r.endStatement.after ss := by
  obtain ⟨statements, words, phase⟩ := r
  cases words with
  | nil => rfl
  | cons name args => simp [Reader.after, Reader.endStatement]

theorem after_start (ss : List Statement) (r : Reader) (c : Char) :
    (r.after ss).start d c = (r.start d c).after ss := by
  unfold Reader.start
  split
  · rfl
  split
  · rfl
  split
  · exact after_endStatement ss r
  split
  · rfl
  split
  · rfl
  · rfl

theorem after_step (ss : List Statement) (r : Reader) (c : Char) :
    (r.after ss).step d c = (r.step d c).after ss := by
  obtain ⟨statements, words, phase⟩ := r
  cases phase with
  | between => exact after_start ss _ c
  | comment =>
    simp only [Reader.step, Reader.after]
    split <;> rfl
  | quoted q escaped t =>
    cases escaped with
    | true => rfl
    | false =>
      simp only [Reader.step, Reader.after]
      split
      · rfl
      split <;> rfl
  | bare v escaped t =>
    cases escaped with
    | true => rfl
    | false =>
      simp only [Reader.step, Reader.after]
      split
      · exact after_start ss (Reader.push ⟨statements, words, .bare v false t⟩ t) c
      split <;> rfl

theorem after_feed (ss : List Statement) (r : Reader) (text : List Char) :
    (r.after ss).feed d text = (r.feed d text).after ss := by
  induction text generalizing r with
  | nil => rfl
  | cons c text ih => rw [feed_cons, feed_cons, after_step, ih]

theorem after_depth (ss : List Statement) (r : Reader) (text : List Char) :
    (r.after ss).depth d text = r.depth d text := by
  induction text generalizing r with
  | nil => rfl
  | cons c text ih =>
    rw [Reader.depth, Reader.depth, after_step, ih]
    rfl

/-! Closed texts. -/

/-- The text holds the statements `ss` and ends where a statement can begin. With `k` blocks open
before it, it closes none that is not open, and leaves `l` open. -/
structure Closed (d : Dialect) (text : List Char) (ss : List Statement) (k l : ℕ) : Prop where
  reader : Reader.init.feed d text = ⟨ss, [], .between⟩
  sane : ∀ p, p <+: text → 0 ≤ (k : ℤ) + Reader.init.depth d p
  depth : (k : ℤ) + Reader.init.depth d text = l

theorem sane_iff : (∀ p, p <+: text → 0 ≤ (k : ℤ) + Reader.init.depth d p) ↔
    -(k : ℤ) ≤ Reader.init.low d text := by
  rw [le_low_iff]
  refine forall₂_congr fun p _ => ?_
  omega

theorem closed_iff : Closed d text ss k l ↔ (Reader.init.feed d text).statements = ss ∧
    (Reader.init.feed d text).words = [] ∧ (Reader.init.feed d text).phase = .between ∧
      -(k : ℤ) ≤ Reader.init.low d text ∧ (k : ℤ) + Reader.init.depth d text = l := by
  constructor
  · intro h
    rw [h.reader]
    exact ⟨rfl, rfl, rfl, sane_iff.mp h.sane, h.depth⟩
  · rintro ⟨hstatements, hwords, hphase, hlow, hdepth⟩
    refine ⟨?_, sane_iff.mpr hlow, hdepth⟩
    rw [← hstatements, ← hwords, ← hphase]

instance : Decidable (Closed d text ss k l) := decidable_of_iff _ closed_iff.symm

/-- Closed texts are read one after another. -/
theorem Closed.append (hx : Closed d x ss k l) (hy : Closed d y ts l j) :
    Closed d (x ++ y) (ss ++ ts) k j := by
  have hafter : Reader.init.feed d x = Reader.init.after ss := by
    rw [hx.reader]
    simp [Reader.after, Reader.init]
  have hdepth := hx.depth
  have hrest : ∀ q, Reader.init.depth d (x ++ q) = Reader.init.depth d x + Reader.init.depth d
      q := by
    intro q
    rw [depth_append, hafter, after_depth]
  refine ⟨?_, ?_, ?_⟩
  · rw [feed_append, hafter, after_feed, hy.reader]
    rfl
  · rintro p ⟨z, hz⟩
    rcases List.append_eq_append_iff.mp hz with ⟨q, hq, -⟩ | ⟨q, rfl, hq⟩
    · exact hx.sane p ⟨q, hq.symm⟩
    · have hle := hy.sane q ⟨z, hq.symm⟩
      rw [hrest]
      omega
  · have hend := hy.depth
    rw [hrest]
    omega

/-- The reader finds in a closed text what it holds. -/
theorem Closed.read (h : Closed d text ss k l) : read d text = ss := by
  have hfeed : text.foldl (Reader.step d) Reader.init = ⟨ss, [], .between⟩ := h.reader
  rw [Statements.read, hfeed]
  rfl

/-! Words. -/

/-- Characters that mean themselves inside an unquoted word. -/
def Inert (d : Dialect) (s : List Char) : Prop :=
  ∀ c ∈ s, (∀ v, d.ends v c = false) ∧ c ≠ '\\' ∧ c ≠ '$'

end Statements
