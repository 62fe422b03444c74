import Mathlib.Algebra.GroupWithZero.Nat
import Mathlib.Data.List.Basic
import Mathlib.Data.List.TakeWhile

/-! Character-list versions of the string operations scripts use: trimming, decimal numbers. -/
namespace Text

/-! A test of the characters of a text looks at those, and not at every character there is. -/

instance (priority := high) decidableForallMem {p : Char → Prop} [DecidablePred p] (s : List Char) :
    Decidable (∀ c ∈ s, p c) :=
  List.decidableBAll p s

instance (priority := high) decidableForallMemOption {p : Char → Prop} [DecidablePred p]
    (o : Option Char) : Decidable (∀ c ∈ o, p c) :=
  Option.decidableForallMem o

instance lawfulBEq : LawfulBEq (List Char) := inferInstance

/-- White space and line terminators as `trim` removes them. -/
def isSpace (c : Char) : Bool :=
  (9 ≤ c.toNat && c.toNat ≤ 13) || c.toNat == 0x20 || c.toNat == 0xa0 || c.toNat == 0x1680 ||
    (0x2000 ≤ c.toNat && c.toNat ≤ 0x200a) || c.toNat == 0x2028 || c.toNat == 0x2029 ||
    c.toNat == 0x202f || c.toNat == 0x205f || c.toNat == 0x3000 || c.toNat == 0xfeff

def trim (s : List Char) : List Char :=
  ((s.dropWhile isSpace).reverse.dropWhile isSpace).reverse

theorem dropWhile_eq_self {p : Char → Bool} {s : List Char} (h : ∀ c ∈ s.head?, p c = false) :
    s.dropWhile p = s := by
  cases s with
  | nil => rfl
  | cons c s => simp [h c (by simp)]

/-- Text without outer white space is its own trim. -/
theorem trim_eq_self {s : List Char} (hh : ∀ c ∈ s.head?, isSpace c = false)
    (hl : ∀ c ∈ s.getLast?, isSpace c = false) : trim s = s := by
  rw [trim, dropWhile_eq_self hh, dropWhile_eq_self, List.reverse_reverse]
  simpa [List.head?_reverse] using hl

theorem trim_of_forall {s : List Char} (h : ∀ c ∈ s, isSpace c = false) : trim s = s :=
  trim_eq_self (fun c hc => h c (List.mem_of_mem_head? hc)) fun c hc =>
    h c (List.mem_of_mem_getLast? hc)

/-- A tail without outer white space survives a trim. -/
theorem trim_append {s t : List Char} (ht : t ≠ []) (hh : ∀ c ∈ t.head?, isSpace c = false)
    (hl : ∀ c ∈ t.getLast?, isSpace c = false) : trim (s ++ t) = s.dropWhile isSpace ++ t := by
  have hfront : (s ++ t).dropWhile isSpace = s.dropWhile isSpace ++ t := by
    rw [List.dropWhile_append]
    split
    · rename_i he
      rw [dropWhile_eq_self hh, List.isEmpty_iff.mp he, List.nil_append]
    · rfl
  rw [trim, hfront, List.reverse_append, dropWhile_eq_self, List.reverse_append,
    List.reverse_reverse,
    List.reverse_reverse]
  intro c hc
  refine hl c ?_
  obtain ⟨d, hd⟩ :=
    Option.isSome_iff_exists.mp (List.isSome_head?.mpr (List.reverse_ne_nil_iff.mpr ht))
  rw [List.head?_append, hd] at hc
  rw [← List.head?_reverse, hd]
  exact hc

theorem head?_dropWhile_isSpace {s : List Char} :
    ∀ c ∈ (s.dropWhile isSpace).head?, isSpace c = false := by
  intro c hc
  have := List.head?_dropWhile_not isSpace s
  simp_all

theorem head?_trim {s : List Char} : ∀ c ∈ (trim s).head?, isSpace c = false := by
  intro c hc
  apply head?_dropWhile_isSpace (s := s) c
  obtain ⟨t, ht⟩ := List.dropWhile_suffix isSpace (l := (s.dropWhile isSpace).reverse)
  have hs : s.dropWhile isSpace = trim s ++ t.reverse := by
    rw [trim, ← List.reverse_append, ht, List.reverse_reverse]
  rw [hs, List.head?_append, Option.mem_def.mp hc]
  rfl

/-- Something visible survives a trim. -/
theorem trim_ne_nil {s : List Char} {c : Char} (hc : c ∈ s) (h : isSpace c = false) :
    trim s ≠ [] := by
  intro he
  rw [trim, List.reverse_eq_nil_iff, List.dropWhile_eq_nil_iff] at he
  cases hd : s.dropWhile isSpace with
  | nil => simp [List.dropWhile_eq_nil_iff.mp hd c hc] at h
  | cons d t =>
    have hhead := head?_dropWhile_isSpace (s := s) d (by simp [hd])
    simp [he d (by simp [hd])] at hhead

theorem dropWhile_append_cons {c : Char} (hc : isSpace c = false) (s t : List Char) :
    (s ++ c :: t).dropWhile isSpace = s.dropWhile isSpace ++ c :: t := by
  rw [List.dropWhile_append]
  split
  · next he => simp [List.isEmpty_iff.mp he, hc]
  · rfl

/-- Only white space at the end goes from a text that starts with none. -/
theorem trim_append_cons_eq {p : List Char} {c : Char} (hp : ∀ d ∈ p.head?, isSpace d = false)
    (hc : isSpace c = false) (s : List Char) :
    trim (p ++ c :: s) = p ++ c :: (s.reverse.dropWhile isSpace).reverse := by
  have hhead : ∀ d ∈ (p ++ c :: s).head?, isSpace d = false := by
    intro d hd
    cases p with
    | nil => cases hd; exact hc
    | cons _ _ => exact hp d hd
  rw [trim, dropWhile_eq_self hhead, List.reverse_append, List.reverse_cons, List.append_assoc,
    List.singleton_append, dropWhile_append_cons hc]
  simp

/-- Text that does not start with white space is kept up to any visible character. -/
theorem trim_append_cons {p : List Char} {c : Char} (hp : ∀ d ∈ p.head?, isSpace d = false)
    (hc : isSpace c = false) (s : List Char) : ∃ t, trim (p ++ c :: s) = p ++ c :: t :=
  ⟨_, trim_append_cons_eq hp hc s⟩

/-- A text without the characters of a kind at its ends. -/
def strip (p : Char → Bool) (s : List Char) : List Char :=
  ((s.dropWhile p).reverse.dropWhile p).reverse

theorem strip_append {p : Char → Bool} {s t : List Char} (ht : ∀ c ∈ t, p c = true) :
    strip p (s ++ t) = strip p s := by
  have hend : ∀ u : List Char, (t.reverse ++ u).dropWhile p = u.dropWhile p := fun u => by
    rw [List.dropWhile_append, List.dropWhile_eq_nil_iff.mpr fun c hc =>
      ht c (List.mem_reverse.mp hc)]
    rfl
  rw [strip, strip, List.dropWhile_append]
  split
  · next he => rw [List.isEmpty_iff.mp he, List.dropWhile_eq_nil_iff.mpr ht]
  · rw [List.reverse_append, hend]

theorem strip_prefix {p : Char → Bool} {s : List Char} : strip p s <+: s.dropWhile p := by
  have h : ((s.dropWhile p).reverse.dropWhile p) <:+ (s.dropWhile p).reverse :=
    List.dropWhile_suffix p
  rwa [strip, ← List.reverse_suffix, List.reverse_reverse]

theorem trim_append_space {s t : List Char} (ht : ∀ c ∈ t, isSpace c = true) :
    trim (s ++ t) = trim s := strip_append ht

/-- White space at the end does not matter to a trim. -/
theorem trim_dropEnd (s : List Char) : trim (s.reverse.dropWhile isSpace).reverse = trim s := by
  have hs : (s.reverse.dropWhile isSpace).reverse ++ (s.reverse.takeWhile isSpace).reverse = s := by
    rw [← List.reverse_append, List.takeWhile_append_dropWhile, List.reverse_reverse]
  conv_rhs => rw [← hs]
  exact (trim_append_space fun c hc => List.mem_takeWhile_imp (List.mem_reverse.mp hc)).symm

/-- Text that does not start with white space keeps its first character. -/
theorem trim_cons {c : Char} (hc : isSpace c = false) (s : List Char) :
    ∃ t, trim (c :: s) = c :: t :=
  trim_append_cons (p := []) nofun hc s

theorem getLast?_trim {s : List Char} : ∀ c ∈ (trim s).getLast?, isSpace c = false := by
  intro c hc
  rw [trim, List.getLast?_reverse] at hc
  exact head?_dropWhile_isSpace c hc

theorem trim_trim (s : List Char) : trim (trim s) = trim s := trim_eq_self head?_trim getLast?_trim

/-- Length of a character in UTF-16 units. -/
def unitLength (c : Char) : ℕ := if c.toNat < 0x10000 then 1 else 2

/-- What is read back for a character that was cut in half. -/
def replacement : Char := '\uFFFD'

/-- `slice(0, n)`: the prefix of `n` UTF-16 units, as it is written in UTF-8. -/
def slice : ℕ → List Char → List Char
  | 0, _ => []
  | _, [] => []
  | n + 1, c :: s =>
    if unitLength c ≤ n + 1 then c :: slice (n + 1 - unitLength c) s else [replacement]

def units (s : List Char) : ℕ := (s.map unitLength).sum

/-- Comparison character by character. -/
def le : List Char → List Char → Bool
  | [], _ => true
  | _ :: _, [] => false
  | c :: s, d :: t => c.toNat < d.toNat || (c.toNat == d.toNat && le s t)

/-- A line terminator of a regular expression. -/
def isLineEnd (c : Char) : Bool :=
  c.toNat == 0xa || c.toNat == 0xd || c.toNat == 0x2028 || c.toNat == 0x2029

/-- Where a line starts, for a multi-line expression: the text itself, and what follows a line
terminator. -/
def lineStarts (s : List Char) : List (List Char) :=
  s :: s.tails.filterMap fun
    | c :: rest => if isLineEnd c then some rest else none
    | [] => none

theorem le_total (s t : List Char) : le s t = true ∨ le t s = true := by
  induction s generalizing t with
  | nil => exact .inl rfl
  | cons c s ih =>
    cases t with
    | nil => exact .inr rfl
    | cons d t =>
      simp only [le, Bool.or_eq_true, Bool.and_eq_true, decide_eq_true_eq, beq_iff_eq]
      rcases Nat.lt_trichotomy c.toNat d.toNat with h | h | h
      · exact .inl (.inl h)
      · exact (ih t).imp (fun hst => .inr ⟨h, hst⟩) fun hts => .inr ⟨h.symm, hts⟩
      · exact .inr (.inl h)

theorem le_antisymm {s t : List Char} (hst : le s t = true) (hts : le t s = true) : s = t := by
  induction s generalizing t with
  | nil =>
    cases t with
    | nil => rfl
    | cons d t => simp [le] at hts
  | cons c s ih =>
    cases t with
    | nil => simp [le] at hst
    | cons d t =>
      simp only [le, Bool.or_eq_true, Bool.and_eq_true, decide_eq_true_eq, beq_iff_eq] at hst hts
      rcases hst with hst | ⟨hcd, hst⟩
      · omega
      · rcases hts with hts | ⟨-, hts⟩
        · omega
        · rw [Char.toNat_inj.mp hcd, ih hst hts]

theorem head?_slice {n : ℕ} (hn : 2 ≤ n) (s : List Char) : (slice n s).head? = s.head? := by
  obtain ⟨n, rfl⟩ : ∃ m, n = m + 1 := ⟨n - 1, by omega⟩
  cases s with
  | nil => rfl
  | cons c s =>
    have : unitLength c ≤ n + 1 := by unfold unitLength; split <;> omega
    simp [slice, this]

/-- `replace(/\s+/g, " ")` on text whose only white space is the blank. -/
def collapse : List Char → List Char
  | ' ' :: ' ' :: s => collapse (' ' :: s)
  | c :: s => c :: collapse s
  | [] => []

/-- One to `k` decimal digits, as a number. -/
def number (k : ℕ) (s : List Char) : Option ℕ :=
  if s ≠ [] ∧ s.length ≤ k ∧ s.all Char.isDigit then some (Nat.ofDigitChars 10 s 0) else none

theorem number_toDigits {k n : ℕ} (hk : 0 < k) (hn : n < 10 ^ k) :
    number k (Nat.toDigits 10 n) = some n := by
  have hlen := (Nat.length_toDigits_le_iff (b := 10) (by omega) hk).mpr hn
  have hdig : (Nat.toDigits 10 n).all Char.isDigit :=
    List.all_eq_true.mpr fun c hc => Nat.isDigit_of_mem_toDigits (by omega) (Nat.le_refl _) hc
  rw [number, if_pos ⟨Nat.toDigits_ne_nil, hlen, hdig⟩, Nat.ofDigitChars_ten_toDigits]

theorem digits_of_number {k n : ℕ} {s : List Char} (h : number k s = some n) :
    s ≠ [] ∧ ∀ c ∈ s, c.isDigit = true := by
  unfold number at h
  split at h
  · next hd => exact ⟨hd.1, List.all_eq_true.mp hd.2.2⟩
  · cases h

theorem isSpace_eq_false_of_isDigit {c : Char} (h : c.isDigit) : isSpace c = false := by
  simp only [Char.isDigit, Bool.and_eq_true, decide_eq_true_eq, UInt32.le_iff_toNat_le] at h
  change 48 ≤ c.toNat ∧ c.toNat ≤ 57 at h
  simp only [isSpace, Bool.or_eq_false_iff, Bool.and_eq_false_iff, decide_eq_false_iff_not,
    beq_eq_false_iff_ne]
  omega

theorem range_of_isAlphanum {c : Char} (h : c.isAlphanum = true) :
    ((65 ≤ c.toNat ∧ c.toNat ≤ 90) ∨ 97 ≤ c.toNat ∧ c.toNat ≤ 122) ∨ 48 ≤ c.toNat ∧
    c.toNat ≤ 57 := by
  change ((decide (65 ≤ c.val ∧ c.val ≤ 90) || (decide (97 ≤ c.val) && decide (c.val ≤ 122))) ||
    (decide (48 ≤ c.val) && decide (c.val ≤ 57))) = true at h
  simp only [Bool.or_eq_true, Bool.and_eq_true, decide_eq_true_eq, UInt32.le_iff_toNat_le] at h
  exact h

theorem isSpace_eq_false_of_isAlphanum {c : Char} (h : c.isAlphanum = true) :
    isSpace c = false := by
  have hrange := range_of_isAlphanum h
  simp only [isSpace, Bool.or_eq_false_iff, Bool.and_eq_false_iff, decide_eq_false_iff_not,
    beq_eq_false_iff_ne]
  omega

/-- White space has no case. -/
theorem toLower_of_isSpace {c : Char} (h : isSpace c = true) : c.toLower = c := by
  refine dif_neg fun hup => ?_
  have hupper : c.isUpper = true := decide_eq_true hup
  have hletter : c.isAlphanum = true := by
    change ((c.isUpper || c.isLower) || c.isDigit) = true
    rw [hupper, Bool.true_or, Bool.true_or]
  rw [isSpace_eq_false_of_isAlphanum hletter] at h
  cases h

theorem toLower_of_isDigit {c : Char} (h : c.isDigit = true) : c.toLower = c := by
  refine dif_neg fun hup => ?_
  have hlow : 65 ≤ c.toNat := UInt32.le_iff_toNat_le.mp hup.1
  simp only [Char.isDigit, Bool.and_eq_true, decide_eq_true_eq, UInt32.le_iff_toNat_le] at h
  change 48 ≤ c.toNat ∧ c.toNat ≤ 57 at h
  omega

theorem mem_toDigits_isDigit {n : ℕ} {c : Char} (h : c ∈ Nat.toDigits 10 n) : c.isDigit :=
  Nat.isDigit_of_mem_toDigits (by omega) (Nat.le_refl _) h

/-- A number ends where the digits do. -/
theorem takeWhile_toDigits {n : ℕ} {t : List Char} (h : ∀ c ∈ t.head?, c.isDigit = false) :
    (Nat.toDigits 10 n ++ t).takeWhile Char.isDigit = Nat.toDigits 10 n := by
  rw [List.takeWhile_append_of_pos fun c hc => mem_toDigits_isDigit hc]
  cases t with
  | nil => exact List.append_nil _
  | cons c t => rw [List.takeWhile_cons_of_neg (by simp [h c rfl]), List.append_nil]

/-- A separator that is no digit does not occur in a decimal number. -/
theorem not_mem_toDigits {n : ℕ} {c : Char} (h : c.isDigit = false) : c ∉ Nat.toDigits 10 n := by
  intro hc
  simp [mem_toDigits_isDigit hc] at h

/-- A text is its trim between white space. -/
theorem exists_trim (s : List Char) :
    ∃ a b, s = a ++ trim s ++ b ∧ (∀ c ∈ a, isSpace c = true) ∧ ∀ c ∈ b, isSpace c = true := by
  refine ⟨s.takeWhile isSpace, ((s.dropWhile isSpace).reverse.takeWhile isSpace).reverse, ?_, ?_,
    ?_⟩
  · rw [trim, List.append_assoc, ← List.reverse_append, List.takeWhile_append_dropWhile,
      List.reverse_reverse,
      List.takeWhile_append_dropWhile]
  · exact fun c hc => List.mem_takeWhile_imp hc
  · exact fun c hc => List.mem_takeWhile_imp (List.mem_reverse.mp hc)

theorem mem_trim_of_mem {s : List Char} {c : Char} (h : c ∈ s) (hc : isSpace c = false) :
    c ∈ trim s := by
  obtain ⟨a, b, hs, ha, hb⟩ := exists_trim s
  rw [hs, List.mem_append, List.mem_append] at h
  rcases h with (h | h) | h
  · simp [ha c h] at hc
  · exact h
  · simp [hb c h] at hc

theorem mem_of_mem_trim {s : List Char} {c : Char} (h : c ∈ trim s) : c ∈ s := by
  have h := (List.dropWhile_sublist _).mem (List.mem_reverse.mp h)
  exact (List.dropWhile_sublist _).mem (List.mem_reverse.mp h)

theorem mem_slice {n : ℕ} {s : List Char} {c : Char} (h : c ∈ slice n s) :
    c ∈ s ∨ c = replacement := by
  fun_induction slice n s with
  | case1 => exact absurd h List.not_mem_nil
  | case2 => exact absurd h List.not_mem_nil
  | case3 n d s _ ih =>
    rcases List.mem_cons.mp h with rfl | h
    · exact .inl List.mem_cons_self
    · exact (ih h).imp_left (List.mem_cons_of_mem _)
  | case4 => exact .inr (List.mem_singleton.mp h)

/-- No character of one unit is cut in half. -/
theorem slice_eq_take {n : ℕ} {s : List Char} (h : ∀ c ∈ s, unitLength c = 1) :
    slice n s = s.take n := by
  induction s generalizing n with
  | nil => cases n <;> rfl
  | cons c s ih =>
    cases n with
    | zero => rfl
    | succ n =>
      have hc : unitLength c = 1 := h c List.mem_cons_self
      rw [slice, hc, if_pos (Nat.le_add_left _ _), Nat.add_sub_cancel, List.take_succ_cons,
        ih fun d hd => h d (List.mem_cons_of_mem _ hd)]

theorem mem_of_mem_collapse {s : List Char} {c : Char} (h : c ∈ collapse s) : c ∈ s := by
  fun_induction collapse s with
  | case1 s ih => exact List.mem_cons_of_mem _ (ih h)
  | case2 d s _ ih =>
    rcases List.mem_cons.mp h with rfl | h
    · exact List.mem_cons_self
    · exact List.mem_cons_of_mem _ (ih h)
  | case3 => exact h

section Join
variable {α : Type*} {a : α}

theorem mem_of_mem_intercalate {sep : List α} {xs : List (List α)} (h : a ∈ sep.intercalate xs) :
    a ∈ sep ∨ ∃ l ∈ xs, a ∈ l := by
  induction xs with
  | nil => exact absurd h List.not_mem_nil
  | cons x xs ih =>
    cases xs with
    | nil => exact Or.inr ⟨x, by simp, by simpa using h⟩
    | cons y xs =>
      rw [List.intercalate_cons_cons, List.mem_append, List.mem_append] at h
      rcases h with (h | h) | h
      · exact Or.inr ⟨x, by simp, h⟩
      · exact Or.inl h
      · exact (ih h).imp id fun ⟨l, hl, ha⟩ => ⟨l, List.mem_cons_of_mem _ hl, ha⟩

/-- A text is cut in one way only at the first occurrence of a mark. -/
theorem cut_inj {x y z w : List α} (hx : a ∉ x) (hy : a ∉ y) (h : x ++ a :: z = y ++ a :: w) :
    x = y ∧ z = w := by
  induction x generalizing y with
  | nil =>
    cases y with
    | nil => exact ⟨rfl, (List.cons.inj h).2⟩
    | cons c y => exact absurd ((List.cons.inj h).1 ▸ List.mem_cons_self) hy
  | cons b x ih =>
    cases y with
    | nil => exact absurd ((List.cons.inj h).1 ▸ List.mem_cons_self) hx
    | cons c y =>
      simp only [List.cons_append, List.cons.injEq] at h
      obtain ⟨rfl, rfl⟩ := ih (fun hm => hx (by simp [hm])) (fun hm => hy (by simp [hm])) h.2
      exact ⟨by rw [h.1], rfl⟩

/-- The last separator cuts a text in one way. -/
theorem cut_last_inj {x y z w : List α} (hz : a ∉ z) (hw : a ∉ w) (h : x ++ a :: z = y ++ a :: w) :
    x = y ∧ z = w := by
  have hrev := congrArg List.reverse h
  simp only [List.reverse_append, List.reverse_cons, List.append_assoc, List.singleton_append]
    at hrev
  obtain ⟨h₁, h₂⟩ := cut_inj (by simpa using hz) (by simpa using hw) hrev
  exact ⟨List.reverse_injective h₂, List.reverse_injective h₁⟩

/-- Joining with a separator loses nothing when no part contains its first character. -/
theorem join_inj {sep : List α} {xs ys : List (List α)} (hx : ∀ l ∈ xs, a ∉ l)
    (hy : ∀ l ∈ ys, a ∉ l)
    (hxs : xs ≠ []) (hys : ys ≠ [])
    (h : (a :: sep).intercalate xs = (a :: sep).intercalate ys) : xs = ys := by
  induction xs generalizing ys with
  | nil => exact absurd rfl hxs
  | cons x xs ih =>
    have hax : a ∉ x := hx x (by simp)
    cases ys with
    | nil => exact absurd rfl hys
    | cons y ys =>
      have hay : a ∉ y := hy y (by simp)
      cases xs with
      | nil =>
        cases ys with
        | nil => simpa using h
        | cons y' ys =>
          rw [List.intercalate_singleton, List.intercalate_cons_cons] at h
          exact absurd (h ▸ hax) (by simp)
      | cons x' xs =>
        cases ys with
        | nil =>
          rw [List.intercalate_singleton, List.intercalate_cons_cons] at h
          exact absurd (h ▸ hay) (by simp)
        | cons y' ys =>
          rw [List.intercalate_cons_cons, List.intercalate_cons_cons, List.append_assoc,
            List.append_assoc] at h
          obtain ⟨rfl, hrest⟩ := cut_inj hax hay h
          have htail : (a :: sep).intercalate (x' :: xs) = (a :: sep).intercalate (y' :: ys) :=
            List.append_cancel_left hrest
          have hy' : ∀ l ∈ y' :: ys, a ∉ l := fun l hl => hy l (List.mem_cons_of_mem _ hl)
          rw [ih (fun l hl => hx l (List.mem_cons_of_mem _ hl)) hy' (by simp) (by simp) htail]

theorem not_mem_of_mem_splitOn [DecidableEq α] {s : List α} : ∀ part ∈ s.splitOn a, a ∉ part := by
  induction s with
  | nil => simp
  | cons b s ih =>
    intro part hp
    rw [List.splitOn_cons_eq_if_modifyHead] at hp
    split at hp
    · rcases List.mem_cons.mp hp with rfl | hp
      · exact List.not_mem_nil
      · exact ih part hp
    · next hb =>
      cases hs : s.splitOn a with
      | nil => exact absurd hs (List.splitOn_ne_nil a s)
      | cons first rest =>
        rw [hs] at hp ih
        rcases List.mem_cons.mp hp with rfl | hp
        · have hfirst := ih first (by simp)
          simpa [hfirst] using fun h => hb (by simp [h])
        · exact ih part (by simp [hp])

theorem mem_splitOn [DecidableEq α] {b : α} {s : List α} (h : b ∈ s) :
    b = a ∨ ∃ part ∈ s.splitOn a, b ∈ part := by
  have hjoin : [a].intercalate (s.splitOn a) = s := List.intercalate_splitOn a
  rw [← hjoin] at h
  exact (mem_of_mem_intercalate h).imp_left List.mem_singleton.mp

/-- Parts without the separator, and not empty, are read back from their join. -/
theorem splitOn_join [DecidableEq α] {zs : List (List α)} (hz : ∀ l ∈ zs, l ≠ [] ∧ a ∉ l) :
    (if [a].intercalate zs = [] then [] else ([a].intercalate zs).splitOn a) = zs := by
  cases zs with
  | nil => rfl
  | cons z zs =>
    have hs := List.splitOn_intercalate a (fun l hl => (hz l hl).2) (List.cons_ne_nil z zs)
    split
    · next he =>
      rw [he, List.splitOn_nil] at hs
      cases hs
      exact absurd rfl (hz [] (by simp)).1
    · exact hs

theorem join_eq [DecidableEq α] {xs ys : List (List α)} (hx : ∀ l ∈ xs, l ≠ [] ∧ a ∉ l)
    (hy : ∀ l ∈ ys, l ≠ [] ∧ a ∉ l) (h : [a].intercalate xs = [a].intercalate ys) : xs = ys := by
  rw [← splitOn_join hx, ← splitOn_join hy, h]

/-- A separator of several characters: all but its first go to the parts. -/
theorem intercalate_cons_sep {sep x : List α} {xs : List (List α)} :
    (a :: sep).intercalate (x :: xs) = [a].intercalate (x :: xs.map (sep ++ ·)) := by
  induction xs generalizing x with
  | nil => rfl
  | cons y ys ih =>
    have hmove : ∀ zs : List (List α), [a].intercalate ((sep ++ y) :: zs) = sep ++
        [a].intercalate (y :: zs) := by
      intro zs
      cases zs with
      | nil => simp
      | cons z zs => simp [List.intercalate_cons_cons]
    rw [List.intercalate_cons_cons, ih, List.map_cons, List.intercalate_cons_cons, hmove]
    simp

theorem infix_intercalate {sep x : List α} {xs : List (List α)} (h : x ∈ xs) :
    x <:+: sep.intercalate xs := by
  induction xs with
  | nil => cases h
  | cons y ys ih =>
    cases ys with
    | nil =>
      have hxy : x = y := List.mem_singleton.mp h
      exact ⟨[], [], by simp [hxy, List.intercalate_singleton]⟩
    | cons z zs =>
      rw [List.intercalate_cons_cons]
      rcases List.mem_cons.mp h with rfl | h
      · exact ⟨[], sep ++ sep.intercalate (z :: zs), by simp⟩
      · exact (ih h).trans (List.suffix_append _ _).isInfix

theorem head?_intercalate {sep x : List α} {xs : List (List α)} (hx : x ≠ []) :
    (sep.intercalate (x :: xs)).head? = x.head? := by
  cases xs with
  | nil => simp
  | cons y ys =>
    rw [List.intercalate_cons_cons, List.append_assoc, List.head?_append_of_ne_nil _ hx]

theorem getLast?_intercalate (sep : List α) {x : List α} {xs : List (List α)}
    (h : ∀ l ∈ x :: xs, l ≠ []) :
    ∃ l ∈ x :: xs, (sep.intercalate (x :: xs)).getLast? = l.getLast? := by
  induction xs generalizing x with
  | nil => exact ⟨x, List.mem_cons_self, by simp⟩
  | cons y ys ih =>
    obtain ⟨l, hl, hlast⟩ := ih fun l hl => h l (List.mem_cons_of_mem _ hl)
    refine ⟨l, List.mem_cons_of_mem _ hl, ?_⟩
    have hne : l.getLast? ≠ none :=
      mt List.getLast?_eq_none_iff.mp (h l (List.mem_cons_of_mem _ hl))
    rw [List.intercalate_cons_cons, List.getLast?_append, hlast,
      Option.or_of_isSome (Option.isSome_iff_ne_none.mpr hne)]

end Join

/-! Lists as they are written: the entries joined by a mark and a space. -/

variable {sep : Char} {ls : List (List Char)}

theorem trim_intercalate (sep : List Char) (h : ∀ l ∈ ls, l ≠ [] ∧ trim l = l) :
    trim (sep.intercalate ls) = sep.intercalate ls := by
  cases ls with
  | nil => rfl
  | cons x xs =>
    apply trim_eq_self
    · have hx := h x List.mem_cons_self
      rw [head?_intercalate hx.1, ← hx.2]
      exact head?_trim
    · obtain ⟨l, hl, hlast⟩ := getLast?_intercalate sep fun l hl => (h l hl).1
      rw [hlast, ← (h l hl).2]
      exact getLast?_trim

/-- Such a list is read back by splitting at the marks, trimming the parts and leaving the empty
ones out. -/
theorem parts_intercalate (h : ∀ l ∈ ls, (l ≠ [] ∧ trim l = l) ∧ sep ∉ l) (hsep : sep ≠ ' ') :
    ((([sep, ' '].intercalate ls).splitOn sep).map trim).filter (· ≠ []) = ls := by
  cases ls with
  | nil => rfl
  | cons x xs =>
    have hparts : ∀ part ∈ x :: xs.map ([' '] ++ ·), sep ∉ part := by
      intro part hp
      rcases List.mem_cons.mp hp with rfl | hp
      · exact (h part List.mem_cons_self).2
      · obtain ⟨l, hl, rfl⟩ := List.mem_map.mp hp
        simpa [hsep] using (h l (List.mem_cons_of_mem _ hl)).2
    have hspace : ∀ l, trim ([' '] ++ l) = trim l := fun l => by
      rw [trim, List.singleton_append, List.dropWhile_cons_of_pos (by decide), trim]
    have hread : (x :: xs.map ([' '] ++ ·)).map trim = x :: xs := by
      rw [List.map_cons, List.map_map, (h x List.mem_cons_self).1.2]
      refine congrArg _ ((List.map_congr_left fun l hl => ?_).trans (List.map_id _))
      exact (hspace l).trans (h l (List.mem_cons_of_mem _ hl)).1.2
    rw [intercalate_cons_sep, List.splitOn_intercalate sep hparts (List.cons_ne_nil _ _), hread,
      List.filter_eq_self.mpr fun l hl => decide_eq_true (h l hl).1.1]

theorem map_trim_splitOn_space (hsep : sep ≠ ' ') (s : List Char) :
    ((' ' :: s).splitOn sep).map trim = (s.splitOn sep).map trim := by
  rw [List.splitOn_cons_eq_if_modifyHead, if_neg (by simpa using hsep.symm)]
  cases s.splitOn sep with
  | nil => rfl
  | cons part parts =>
    rw [List.modifyHead_cons, List.map_cons, List.map_cons, trim,
      List.dropWhile_cons_of_pos (by decide)]
    rfl

/-- The parts of a joined text are the parts of the texts that were joined. -/
theorem map_trim_splitOn_intercalate (hls : ls ≠ []) (hsep : sep ≠ ' ') :
    (([sep, ' '].intercalate ls).splitOn sep).map trim = ls.flatMap fun l =>
      (l.splitOn sep).map trim := by
  induction ls with
  | nil => exact absurd rfl hls
  | cons x xs ih =>
    cases xs with
    | nil => simp
    | cons y ys =>
      rw [List.intercalate_cons_cons, List.append_assoc, List.cons_append, List.singleton_append,
        List.splitOn_append_cons_self,
        List.map_append, map_trim_splitOn_space hsep, ih (List.cons_ne_nil y ys)]
      rfl

end Text
