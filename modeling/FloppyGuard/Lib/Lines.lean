import FloppyGuard.Lib.Text

/-! The lines of a text as `split(/\r?\n/)` finds them, and the lines of a text that was joined from
lines. -/
namespace Text

variable {s l : List Char} {ls : List (List Char)}

def splitLines : List Char → List (List Char)
  | [] => [[]]
  | '\n' :: s => [] :: splitLines s
  | '\r' :: '\n' :: s => [] :: splitLines s
  | c :: s => (splitLines s).modifyHead (c :: ·)

/-- A line without the carriage return at its end. -/
def cutReturn (l : List Char) : List Char := if l.getLast? = some '\r' then l.dropLast else l

theorem splitLines_ne_nil : splitLines s ≠ [] := by
  fun_induction splitLines s with
  | case4 c s _ _ ih =>
    cases hs : splitLines s with
    | nil => exact absurd hs ih
    | cons => simp
  | _ => simp

theorem newline_not_mem : ∀ l ∈ splitLines s, '\n' ∉ l := by
  fun_induction splitLines s with
  | case1 => simp
  | case2 s ih => simpa using ih
  | case3 s ih => simpa using ih
  | case4 c s hc _ ih =>
    cases hs : splitLines s with
    | nil => exact absurd hs splitLines_ne_nil
    | cons first rest =>
      rw [hs, List.forall_mem_cons] at ih
      rw [List.modifyHead_cons, List.forall_mem_cons]
      refine ⟨fun hm => ?_, ih.2⟩
      rcases List.mem_cons.mp hm with rfl | hm
      · exact hc rfl
      · exact ih.1 hm

theorem splitLines_of_not_mem (h : '\n' ∉ s) : splitLines s = [s] := by
  fun_induction splitLines s with
  | case1 => rfl
  | case2 => simp at h
  | case3 => simp at h
  | case4 c s _ _ ih => rw [ih fun hm => h (List.mem_cons_of_mem _ hm), List.modifyHead_cons]

/-- A line end behind a line cuts its carriage return. -/
theorem splitLines_append (h : '\n' ∉ l) (s : List Char) :
    splitLines (l ++ '\n' :: s) = cutReturn l :: splitLines s := by
  induction l with
  | nil => rfl
  | cons c l ih =>
    have hc : c ≠ '\n' := fun he => h (he ▸ List.mem_cons_self)
    have hl : '\n' ∉ l := fun hm => h (List.mem_cons_of_mem _ hm)
    cases l with
    | nil =>
      by_cases hr : c = '\r'
      · subst hr
        rfl
      · rw [List.singleton_append, splitLines, cutReturn, if_neg (by simpa using hr)]
        · rfl
        · exact hc
        · exact fun _ he => absurd he hr
    | cons d l =>
      have hd : d ≠ '\n' := fun he => hl (he ▸ List.mem_cons_self)
      rw [List.cons_append, splitLines, ih hl, List.modifyHead_cons, cutReturn, cutReturn,
        List.getLast?_cons_cons]
      · split <;> rfl
      · exact hc
      · intro _ _ he
        exact hd (List.cons.inj he).1

theorem trim_cutReturn : trim (cutReturn l) = trim l := by
  unfold cutReturn
  split
  · next h =>
    have hl : l = l.dropLast ++ ['\r'] := (List.dropLast_append_getLast? _ h).symm
    conv_rhs => rw [hl]
    exact (trim_append_space (by decide)).symm
  · rfl

/-- The lines of a joined text are the lines it was joined from, as far as carriage returns at their
ends do not matter. -/
theorem map_splitLines_intercalate {β : Type*} {g : List Char → β} (hg : ∀ l, g (cutReturn l) = g l)
    (hne : ls ≠ [])
    (h : ∀ l ∈ ls, '\n' ∉ l) : (splitLines (['\n'].intercalate ls)).map g = ls.map g := by
  induction ls with
  | nil => exact absurd rfl hne
  | cons l ls ih =>
    rw [List.forall_mem_cons] at h
    cases ls with
    | nil => rw [List.intercalate_singleton, splitLines_of_not_mem h.1]
    | cons m ls =>
      rw [List.intercalate_cons_cons, List.append_assoc, List.singleton_append,
        splitLines_append h.1, List.map_cons, hg,
        ih (List.cons_ne_nil _ _) h.2]
      rfl

/-- Up to white space the lines of a joined text are the lines it was joined from. -/
theorem splitLines_intercalate (hne : ls ≠ []) (h : ∀ l ∈ ls, '\n' ∉ l) :
    (splitLines (['\n'].intercalate ls)).map trim = ls.map trim :=
  map_splitLines_intercalate (fun _ => trim_cutReturn) hne h

theorem map_trim_splitLines_append (a b : List Char) :
    (splitLines (a ++ '\n' :: b)).map trim = (splitLines a).map trim ++
    (splitLines b).map trim := by
  have hjoin (s : List Char) : (splitLines s).map trim = (s.splitOn '\n').map trim := by
    have hsplit := splitLines_intercalate (List.splitOn_ne_nil '\n' s) not_mem_of_mem_splitOn
    rw [List.intercalate_splitOn] at hsplit
    exact hsplit
  rw [hjoin, hjoin, hjoin, List.splitOn_append_cons_self, List.map_append]

/-! Joined lists. -/

theorem intercalate_append {sep : List Char} {as bs : List (List Char)} (has : as ≠ [])
    (hbs : bs ≠ []) :
    sep.intercalate (as ++ bs) = sep.intercalate as ++ (sep ++ sep.intercalate bs) := by
  induction as with
  | nil => exact absurd rfl has
  | cons x xs ih =>
    cases xs with
    | nil =>
      rw [List.singleton_append, List.intercalate_cons_of_ne_nil hbs, List.intercalate_singleton,
        List.append_assoc]
    | cons y ys =>
      have htail := ih (List.cons_ne_nil y ys)
      rw [List.cons_append] at htail
      rw [List.cons_append, List.cons_append, List.intercalate_cons_cons, htail,
        List.intercalate_cons_cons]
      simp only [List.append_assoc]

/-- Lines at the front of a joined text are split off. -/
theorem splitOn_front {front rest : List (List Char)} (hfront : ∀ l ∈ front, '\n' ∉ l)
    (hrest : rest ≠ []) (t : List Char) :
    (['\n'].intercalate (front ++ rest) ++ t).splitOn '\n' = front ++
    (['\n'].intercalate rest ++ t).splitOn '\n' := by
  induction front with
  | nil => rfl
  | cons l ls ih =>
    have hne : ls ++ rest ≠ [] := fun hnil => hrest (List.append_eq_nil_iff.mp hnil).2
    rw [List.cons_append, List.intercalate_cons_of_ne_nil hne, List.append_assoc, List.append_assoc,
      List.singleton_append,
      List.splitOn_append_cons_self, List.splitOn_eq_singleton (hfront l List.mem_cons_self),
      ih fun l' hl' => hfront l' (List.mem_cons_of_mem _ hl')]
    rfl

/-! Where the lines of an expression start. -/

theorem lineStarts_append (l s : List Char) :
    lineStarts (l ++ '\n' :: s) = (lineStarts l).map (· ++ '\n' :: s) ++ lineStarts s := by
  have htail : ∀ l : List Char, (lineStarts (l ++ '\n' :: s)).tail = (lineStarts l).tail.map
      (· ++ '\n' :: s) ++ lineStarts s := by
    intro l
    induction l with
    | nil => rfl
    | cons c l ih =>
      by_cases hc : isLineEnd c = true
      · simpa [lineStarts, hc] using ih
      · simpa [lineStarts, hc] using ih
  have hcons : ∀ l : List Char, lineStarts l = l :: (lineStarts l).tail := fun _ => rfl
  rw [hcons, htail, hcons l]
  rfl

/-- What starts behind a line terminator inside the line is blank. -/
def OneLine (l : List Char) : Prop :=
  '\n' ∉ l ∧ ∀ t ∈ (lineStarts l).tail, ∀ c ∈ t, isSpace c = true

instance : DecidablePred OneLine := fun _ => inferInstanceAs (Decidable (_ ∧ _))

/-- An expression that passes over leading white space tries each line once. -/
theorem findSome?_lineStarts {β : Type*} {read : List Char → Option β}
    (hread : ∀ b t : List Char, (∀ c ∈ b, isSpace c = true) → read (b ++ t) = read t)
    (hl : OneLine l) :
    (lineStarts (l ++ '\n' :: s)).findSome? read = (read (l ++ '\n' :: s)).or
    ((lineStarts s).findSome? read) := by
  have hnext : (lineStarts s).findSome? read =
      (read s).or ((lineStarts s).tail.findSome? read) := by
    rw [lineStarts, List.findSome?_cons]
    cases read s <;> rfl
  have hblank : ∀ ts : List (List Char), (∀ t ∈ ts, ∀ c ∈ t, isSpace c = true) →
      ((ts.map (· ++ '\n' :: s)).findSome? read).or ((lineStarts s).findSome? read) =
        (lineStarts s).findSome? read := by
    intro ts hts
    induction ts with
    | nil => rfl
    | cons t ts ih =>
      rw [List.forall_mem_cons] at hts
      have ht : read (t ++ '\n' :: s) = read s := by
        rw [hread t _ hts.1]
        exact hread ['\n'] s (by decide)
      rw [List.map_cons, List.findSome?_cons, ht]
      cases hs : read s with
      | none => exact ih hts.2
      | some b => rw [hnext, hs]; rfl
  rw [lineStarts_append, List.findSome?_append]
  have hcons : (lineStarts l).map (· ++ '\n' :: s) = (l ++ '\n' :: s) :: (lineStarts l).tail.map
      (· ++ '\n' :: s) := rfl
  rw [hcons, List.findSome?_cons]
  cases read (l ++ '\n' :: s) with
  | none => exact hblank _ hl.2
  | some b => rfl

/-- The last line. -/
theorem findSome?_lineStarts_last {β : Type*} {read : List Char → Option β}
    (hread : ∀ b t : List Char, (∀ c ∈ b, isSpace c = true) → read (b ++ t) = read t)
    (hnil : read [] = none) (hl : OneLine l) :
    (lineStarts l).findSome? read = read l := by
  have hrest : (lineStarts l).tail.findSome? read = none := by
    refine List.findSome?_eq_none_iff.mpr fun t ht => ?_
    have hblank := hread t [] (hl.2 t ht)
    rwa [List.append_nil, hnil] at hblank
  have hcons : lineStarts l = l :: (lineStarts l).tail := rfl
  rw [hcons, List.findSome?_cons, hrest]
  cases read l <;> rfl

end Text
