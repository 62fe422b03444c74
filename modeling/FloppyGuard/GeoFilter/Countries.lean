import FloppyGuard.GeoFilter.Address
import Mathlib.Data.List.Forall2
import Mathlib.Logic.Function.Basic

/-! The networks of chosen countries (`rangeToCidrs` and `parseDbip` of `geo-filter.js`). -/
namespace FloppyGuard.GeoFilter

open Text

/-- The inner loop: the size grows while the block stays aligned and within the range. -/
def growSize (bits lo hi size : ℕ) : ℕ :=
  if size < bits ∧ lo &&& ((1 <<< (size + 1)) - 1) = 0 ∧ lo + (1 <<< (size + 1)) - 1 ≤ hi then
    growSize bits lo hi (size + 1)
  else size
termination_by bits - size

theorem pow_pos_of_shift (size : ℕ) : 0 < 1 <<< size := by
  rw [Nat.one_shiftLeft]
  exact Nat.two_pow_pos size

def bigRangeToCidrs (f : Family) (lo hi : ℕ) : List (List Char) :=
  if lo ≤ hi then
    let size := growSize f.bits lo hi 0
    (bigToText f lo ++ '/' :: Nat.toDigits 10 (f.bits - size)) ::
      bigRangeToCidrs f (lo + 1 <<< size) hi
  else []
termination_by hi + 1 - lo
decreasing_by
  have := pow_pos_of_shift (growSize f.bits lo hi 0)
  omega

def familyOf (a : List Char) : Family := if ':' ∈ a then .v6 else .v4

def toBig : Family → List Char → Except String ℕ
  | .v4 => v4ToBig
  | .v6 => v6ToBig

/-- A network list for exactly the addresses from `start` to `fin`. -/
def rangeToCidrs (start fin : List Char) : Except String (List (List Char)) :=
  if familyOf start ≠ familyOf fin then .error "Bereich mischt IPv4 und IPv6"
  else do
    let lo ← toBig (familyOf start) start
    let hi ← toBig (familyOf start) fin
    .ok (bigRangeToCidrs (familyOf start) lo hi)

/-- What the loop over the lines has collected. -/
structure Collected where
  rows : ℕ
  spans : Family → List Span
  perCountry : List Char → ℕ

def readRange (start fin : List Char) : Except String Span := do
  if familyOf start ≠ familyOf fin then
    .error ("Bereich mischt IPv4 und IPv6: " ++ String.ofList start ++ "-" ++ String.ofList fin)
  else
    let lo ← toBig (familyOf start) start
    let hi ← toBig (familyOf start) fin
    if h : lo ≤ hi then .ok ⟨lo, hi, h⟩
    else .error ("Bereich verkehrt: " ++ String.ofList start ++ "-" ++ String.ofList fin)

def readLine (countries : List (List Char)) (c : Collected) (line : List Char) :
    Except String Collected :=
  if line = [] then .ok c
  else
    match (trim line).splitOn ',' with
    | start :: fin :: cc :: _ =>
      if cc ∈ countries then
        (readRange start fin).map fun span =>
          ⟨c.rows + 1,
            Function.update c.spans (familyOf start) (c.spans (familyOf start) ++ [span]),
            Function.update c.perCountry cc (c.perCountry cc + 1)⟩
      else .ok { c with rows := c.rows + 1 }
    | _ => .ok { c with rows := c.rows + 1 }

/-- The ranges of one family, sorted and merged. -/
def mergedSpans (spans : List Span) : List Span :=
  Span.merge (spans.mergeSort fun s t => decide (s.lo ≤ t.lo))

def familyCidrs (f : Family) (spans : List Span) : List (List Char) :=
  (mergedSpans spans).flatMap fun s => bigRangeToCidrs f s.lo s.hi

structure Parsed where
  ranges : List (List Char)
  rows : ℕ
  perCountry : List Char → ℕ

def parseDbip (csvText : List Char) (countries : List (List Char)) : Except String Parsed := do
  let c ← (csvText.splitOn '\n').foldlM (readLine countries) ⟨0, fun _ => [], fun _ => 0⟩
  let ranges := familyCidrs .v4 (c.spans .v4) ++ familyCidrs .v6 (c.spans .v6)
  match ranges.find? fun cidr => !isCidr cidr with
  | some cidr => .error ("Ungültiges Netz aus der Liste: " ++ String.ofList cidr)
  | none => .ok ⟨ranges, c.rows, c.perCountry⟩

variable {f : Family} {lo hi size bits n : ℕ} {a b line : List Char} {span : Span}
  {spans : List Span}

/-! The blocks of a range. -/

theorem growSize_dvd (h : 2 ^ size ∣ lo) : 2 ^ growSize bits lo hi size ∣ lo := by
  fun_induction growSize bits lo hi size with
  | case1 size hgrow ih =>
    refine ih ?_
    rw [Nat.dvd_iff_mod_eq_zero, ← Nat.and_two_pow_sub_one_eq_mod, ← Nat.one_shiftLeft]
    exact hgrow.2.1
  | case2 => exact h

theorem growSize_fits (h : lo + 2 ^ size ≤ hi + 1) :
    lo + 2 ^ growSize bits lo hi size ≤ hi + 1 := by
  fun_induction growSize bits lo hi size with
  | case1 size hgrow ih =>
    refine ih ?_
    have hle := hgrow.2.2
    have hpos := Nat.two_pow_pos (size + 1)
    rw [Nat.one_shiftLeft] at hle
    omega
  | case2 => exact h

theorem growSize_le (h : size ≤ bits) : growSize bits lo hi size ≤ bits := by
  fun_induction growSize bits lo hi size with
  | case1 size hgrow ih => exact ih hgrow.1
  | case2 => exact h

/-- Every size that fits within the family is reached. -/
theorem le_growSize {k : ℕ} (hk : k ≤ bits) (hdvd : 2 ^ k ∣ lo) (hfits : lo + 2 ^ k ≤ hi + 1) :
    k ≤ growSize bits lo hi size := by
  fun_induction growSize bits lo hi size with
  | case1 size hgrow ih => exact ih
  | case2 size hstop =>
    by_contra hlt
    have hle : size + 1 ≤ k := Nat.not_le.mp hlt
    refine hstop ⟨by omega, ?_, ?_⟩
    · rw [Nat.one_shiftLeft, Nat.and_two_pow_sub_one_eq_mod, ← Nat.dvd_iff_mod_eq_zero]
      exact (Nat.pow_dvd_pow 2 hle).trans hdvd
    · have hpow : 2 ^ (size + 1) ≤ 2 ^ k := Nat.pow_le_pow_right (by omega) hle
      rw [Nat.one_shiftLeft]
      omega

def rangeBlocks (bits lo hi : ℕ) : List DyadicBlock :=
  if lo ≤ hi then
    ⟨lo, growSize bits lo hi 0, growSize_dvd (Nat.one_dvd lo)⟩ ::
      rangeBlocks bits (lo + 1 <<< growSize bits lo hi 0) hi
  else []
termination_by hi + 1 - lo
decreasing_by
  have := pow_pos_of_shift (growSize bits lo hi 0)
  omega

theorem rangeBlocks_greedy (hhi : hi < 2 ^ bits) :
    DyadicBlock.Greedy hi lo (rangeBlocks bits lo hi) := by
  fun_induction rangeBlocks bits lo hi with
  | case1 lo hle ih =>
    rw [Nat.one_shiftLeft] at ih ⊢
    have hfits : lo + 2 ^ growSize bits lo hi 0 ≤ hi + 1 := growSize_fits (by omega)
    refine .step (b := ⟨lo, growSize bits lo hi 0, growSize_dvd (Nat.one_dvd lo)⟩) hfits
      (fun c hstart hc => ?_) ih
    obtain ⟨start, size, hdvd⟩ := c
    obtain rfl : start = lo := hstart
    have hle : start + 2 ^ size ≤ hi + 1 := hc
    refine le_growSize ?_ hdvd hle
    have hpow : 2 ^ size ≤ 2 ^ bits := by omega
    exact (Nat.pow_le_pow_iff_right (by omega)).mp hpow
  | case2 lo hlt => exact .done (Nat.not_le.mp hlt)

def cidrOf (f : Family) (b : DyadicBlock) : List Char :=
  bigToText f b.start ++ '/' :: Nat.toDigits 10 (f.bits - b.size)

theorem bigRangeToCidrs_eq :
    bigRangeToCidrs f lo hi = (rangeBlocks f.bits lo hi).map (cidrOf f) := by
  fun_induction bigRangeToCidrs f lo hi with
  | case1 lo hle size ih =>
    rw [rangeBlocks, if_pos hle, List.map_cons, ← ih]
    rfl
  | case2 lo hlt =>
    rw [rangeBlocks, if_neg hlt]
    rfl

theorem size_le_of_mem {b : DyadicBlock} (h : b ∈ rangeBlocks bits lo hi) : b.size ≤ bits := by
  fun_induction rangeBlocks bits lo hi with
  | case1 lo hle ih =>
    rcases List.mem_cons.mp h with rfl | h
    · exact growSize_le (Nat.zero_le _)
    · exact ih h
  | case2 => exact absurd h List.not_mem_nil

/-- What is written for a block of the range reads as this block. -/
theorem cidrText_of_mem {b : DyadicBlock} (hhi : hi < 2 ^ f.bits)
    (h : b ∈ rangeBlocks f.bits lo hi) :
    CidrText (cidrOf f b) f b := by
  have hle : b.start ≤ hi := ((rangeBlocks_greedy hhi).mem.mp ⟨b, h, DyadicBlock.start_mem⟩).2
  have hsize := size_le_of_mem h
  exact ⟨_, _, rfl, Nat.sub_le _ _, by omega, bigToText_text (Nat.lt_of_le_of_lt hle hhi)⟩

/-! What network lists say. -/

/-- `cidrs` are texts of exactly the addresses in `p`, with no address twice. -/
structure Exact (cidrs : List (List Char)) (p : Family → ℕ → Prop) : Prop where
  text : ∀ t ∈ cidrs, ∃ f b, CidrText t f b
  mem : ∀ f n, (∃ t ∈ cidrs, ∃ b, CidrText t f b ∧ n ∈ b) ↔ p f n
  disjoint : cidrs.Pairwise fun t u => ∀ f n,
    ¬((∃ b, CidrText t f b ∧ n ∈ b) ∧ ∃ b, CidrText u f b ∧ n ∈ b)

/-- The texts of blocks of one family that lie one behind the other. -/
theorem Exact.of_blocks {bs : List DyadicBlock} (htext : ∀ b ∈ bs, CidrText (cidrOf f b) f b)
    (hpair : bs.Pairwise fun b c => b.next ≤ c.start) :
    Exact (bs.map (cidrOf f)) fun f' n => f' = f ∧ ∃ b ∈ bs, n ∈ b where
  text t ht := by
    obtain ⟨b, hb, rfl⟩ := List.mem_map.mp ht
    exact ⟨f, b, htext b hb⟩
  mem f' n := by
    constructor
    · rintro ⟨t, ht, c, hc, hn⟩
      obtain ⟨b, hb, rfl⟩ := List.mem_map.mp ht
      obtain ⟨rfl, rfl⟩ := hc.unique (htext b hb)
      exact ⟨rfl, c, hb, hn⟩
    · rintro ⟨rfl, b, hb, hn⟩
      exact ⟨_, List.mem_map_of_mem hb, b, htext b hb, hn⟩
  disjoint := by
    rw [List.pairwise_map]
    refine List.Pairwise.imp_of_mem (fun {b c} hb hc hnext f' n hboth => ?_) hpair
    obtain ⟨⟨b', hb', hn⟩, c', hc', hn'⟩ := hboth
    obtain ⟨-, rfl⟩ := hb'.unique (htext b hb)
    obtain ⟨-, rfl⟩ := hc'.unique (htext c hc)
    exact DyadicBlock.not_mem_both hnext ⟨hn, hn'⟩

/-- Lists of the two families side by side. -/
theorem Exact.append {xs ys : List (List Char)} {p q : Family → ℕ → Prop} (hx : Exact xs p)
    (hy : Exact ys q)
    (hp : ∀ f n, ¬(p f n ∧ q f n)) : Exact (xs ++ ys) fun f n => p f n ∨ q f n where
  text t ht := (List.mem_append.mp ht).elim (hx.text t) (hy.text t)
  mem f n := by
    rw [← hx.mem, ← hy.mem]
    simp only [List.mem_append, or_and_right, exists_or]
  disjoint := by
    rw [List.pairwise_append]
    refine ⟨hx.disjoint, hy.disjoint, fun t ht u hu f n hboth => hp f n ⟨?_, ?_⟩⟩
    · exact (hx.mem f n).mp ⟨t, ht, hboth.1⟩
    · exact (hy.mem f n).mp ⟨u, hu, hboth.2⟩

theorem Exact.congr {xs : List (List Char)} {p q : Family → ℕ → Prop} (h : Exact xs p)
    (hpq : ∀ f n, p f n ↔ q f n) :
    Exact xs q where
  text := h.text
  mem f n := (h.mem f n).trans (hpq f n)
  disjoint := h.disjoint

/-! The ranges of one family. -/

theorem ordered_sorted : Span.Ordered (spans.mergeSort fun s t => decide (s.lo ≤ t.lo)) := by
  have htrans : ∀ a b c : Span, decide (a.lo ≤ b.lo) = true → decide (b.lo ≤ c.lo) = true →
      decide (a.lo ≤ c.lo) = true :=
    fun a b c hab hbc =>
      decide_eq_true (Nat.le_trans (of_decide_eq_true hab) (of_decide_eq_true hbc))
  have htotal : ∀ a b : Span, (decide (a.lo ≤ b.lo) || decide (b.lo ≤ a.lo)) = true := by
    intro a b
    rw [Bool.or_eq_true, decide_eq_true_eq, decide_eq_true_eq]
    exact Nat.le_total a.lo b.lo
  exact (List.pairwise_mergeSort htrans htotal spans).imp fun h => of_decide_eq_true h

theorem mem_mergedSpans : (∃ s ∈ mergedSpans spans, n ∈ s) ↔ ∃ s ∈ spans, n ∈ s := by
  rw [mergedSpans, Span.mem_merge ordered_sorted]
  simp only [List.mem_mergeSort]

theorem mergedSpans_apart : (mergedSpans spans).Pairwise Span.Apart :=
  Span.merge_apart ordered_sorted

theorem hi_lt_of_mem_mergedSpans (h : ∀ s ∈ spans, s.hi < n) : ∀ s ∈ mergedSpans spans, s.hi < n :=
  Span.hi_lt_of_mem_merge fun s hs => h s (List.mem_mergeSort.mp hs)

theorem familyCidrs_eq : familyCidrs f spans =
    ((mergedSpans spans).flatMap fun s => rangeBlocks f.bits s.lo s.hi).map (cidrOf f) := by
  rw [familyCidrs, List.map_flatMap]
  simp only [bigRangeToCidrs_eq]

theorem mergedSpans_greedy (h : ∀ s ∈ spans, s.hi < 2 ^ f.bits) :
    ∀ s ∈ mergedSpans spans, DyadicBlock.Greedy s.hi s.lo (rangeBlocks f.bits s.lo s.hi) :=
  fun s hs => rangeBlocks_greedy (hi_lt_of_mem_mergedSpans h s hs)

theorem familyCidrs_exact (h : ∀ s ∈ spans, s.hi < 2 ^ f.bits) :
    Exact (familyCidrs f spans) fun f' n => f' = f ∧ ∃ s ∈ spans, n ∈ s := by
  have hgreedy := mergedSpans_greedy h
  rw [familyCidrs_eq]
  refine (Exact.of_blocks (fun b hb => ?_)
    (DyadicBlock.pairwise_flatMap hgreedy mergedSpans_apart)).congr fun f' n => ?_
  · obtain ⟨s, hs, hb⟩ := List.mem_flatMap.mp hb
    exact cidrText_of_mem (hi_lt_of_mem_mergedSpans h s hs) hb
  · rw [DyadicBlock.mem_flatMap hgreedy, mem_mergedSpans]

theorem familyCidrs_length_le (h : ∀ s ∈ spans, s.hi < 2 ^ f.bits) {cs : List DyadicBlock}
    (hcs : ∀ n, (∃ c ∈ cs, n ∈ c) ↔ ∃ s ∈ spans, n ∈ s) :
    (familyCidrs f spans).length ≤ cs.length := by
  rw [familyCidrs_eq, List.length_map]
  refine DyadicBlock.length_flatMap_le (mergedSpans_greedy h) mergedSpans_apart fun n => ?_
  rw [hcs, mem_mergedSpans]

/-! The rows of the list. -/

structure Row where
  family : Family
  span : Span
  country : List Char

/-- A line with the start, the end and the country of a row. -/
def IsRow (line : List Char) (row : Row) : Prop := ∃ start fin,
  trim line = start ++ ',' :: (fin ++ ',' :: row.country) ∧
  AddressText row.family start row.span.lo ∧ AddressText row.family fin row.span.hi ∧
    ',' ∉ row.country

theorem comma_notMem (h : AddressText f a n) : ',' ∉ a := by
  intro hc
  cases f with
  | v4 =>
    have hnot := mem_v4 h hc
    revert hnot
    decide
  | v6 =>
    have hnot := mem_v6 h hc
    revert hnot
    decide

theorem familyOf_text (h : AddressText f a n) : familyOf a = f := by
  cases f with
  | v4 => exact if_neg (colon_notMem_v4 h)
  | v6 => exact if_pos (colon_mem_v6 h)

theorem toBig_text (h : AddressText f a n) : toBig f a = .ok n := by
  cases f with
  | v4 => exact v4ToBig_of_text h
  | v6 => exact v6ToBig_of_text h

theorem readRange_text {start fin : List Char} (hlo : AddressText f start span.lo)
    (hhi : AddressText f fin span.hi) :
    readRange start fin = .ok span := by
  unfold readRange
  rw [familyOf_text hlo, familyOf_text hhi, if_neg (not_not_intro rfl), toBig_text hlo,
    toBig_text hhi]
  exact dif_pos span.lo_le_hi

/-- One row more. -/
def Collected.add (countries : List (List Char)) (c : Collected) (row : Row) : Collected :=
  if row.country ∈ countries then
    ⟨c.rows + 1, Function.update c.spans row.family (c.spans row.family ++ [row.span]),
      Function.update c.perCountry row.country (c.perCountry row.country + 1)⟩
  else { c with rows := c.rows + 1 }

variable {countries : List (List Char)} {c : Collected} {row : Row} {rows : List Row}
  {lines : List (List Char)}

theorem IsRow.ne_nil (h : IsRow line row) : line ≠ [] := by
  obtain ⟨start, fin, htrim, -⟩ := h
  rintro rfl
  have hmem : ',' ∈ trim [] := by
    rw [htrim]
    simp
  exact absurd hmem List.not_mem_nil

/-- The parts of a row. -/
theorem IsRow.splitOn (h : IsRow line row) :
    ∃ start fin, (trim line).splitOn ',' = [start, fin, row.country] ∧
    AddressText row.family start row.span.lo ∧ AddressText row.family fin row.span.hi := by
  obtain ⟨start, fin, htrim, hlo, hhi, hcomma⟩ := h
  have hjoin : trim line = [','].intercalate [start, fin, row.country] := by
    rw [htrim]
    simp [List.intercalate_cons_cons]
  have hparts : ∀ l ∈ [start, fin, row.country], ',' ∉ l := by
    rw [List.forall_mem_cons, List.forall_mem_cons, List.forall_mem_singleton]
    exact ⟨comma_notMem hlo, comma_notMem hhi, hcomma⟩
  exact ⟨start, fin,
    by rw [hjoin, List.splitOn_intercalate _ hparts (List.cons_ne_nil _ _)], hlo, hhi⟩

theorem readLine_row (h : IsRow line row) :
    readLine countries c line = .ok (c.add countries row) := by
  obtain ⟨start, fin, hsplit, hlo, hhi⟩ := h.splitOn
  rw [readLine, if_neg h.ne_nil, hsplit]
  dsimp only
  rw [readRange_text hlo hhi, familyOf_text hlo, Collected.add]
  split <;> rfl

theorem readLine_nil : readLine countries c [] = .ok c := rfl

/-- The lines of the list, read one after the other. -/
theorem foldlM_readLine (h : List.Forall₂ IsRow (lines.filter (· ≠ [])) rows) :
    lines.foldlM (readLine countries) c = .ok (rows.foldl (Collected.add countries) c) := by
  induction lines generalizing rows c with
  | nil =>
    cases h
    rfl
  | cons line lines ih =>
    rw [List.foldlM_cons]
    by_cases hne : line = []
    · subst hne
      rw [readLine_nil]
      exact ih h
    · rw [List.filter_cons_of_pos (by simpa using hne)] at h
      cases h with
      | cons hrow hrest =>
        rw [readLine_row hrow]
        exact ih hrest

theorem rows_foldl : (rows.foldl (Collected.add countries) c).rows = c.rows + rows.length := by
  induction rows generalizing c with
  | nil => rfl
  | cons row rows ih =>
    have hone : (c.add countries row).rows = c.rows + 1 := by
      unfold Collected.add
      split <;> rfl
    rw [List.foldl_cons, ih, hone, List.length_cons]
    omega

/-- The ranges of one family whose country is chosen. -/
def chosen (countries : List (List Char)) (f : Family) (rows : List Row) : List Span :=
  (rows.filter fun row => row.country ∈ countries ∧ row.family = f).map Row.span

theorem spans_foldl :
    (rows.foldl (Collected.add countries) c).spans f = c.spans f ++ chosen countries f rows := by
  induction rows generalizing c with
  | nil => exact (List.append_nil _).symm
  | cons row rows ih =>
    rw [List.foldl_cons, ih, chosen, chosen, List.filter_cons]
    unfold Collected.add
    by_cases hcountry : row.country ∈ countries
    · by_cases hfamily : row.family = f
      · simp [hcountry, hfamily]
      · simp [hcountry, hfamily, Ne.symm hfamily]
    · simp [hcountry]

theorem perCountry_foldl {cc : List Char} : (rows.foldl (Collected.add countries) c).perCountry cc =
    c.perCountry cc + (rows.filter fun row => row.country ∈ countries ∧
      row.country = cc).length := by
  induction rows generalizing c with
  | nil => rfl
  | cons row rows ih =>
    rw [List.foldl_cons, ih, List.filter_cons]
    unfold Collected.add
    by_cases hcountry : row.country ∈ countries
    · by_cases hcc : row.country = cc
      · subst hcc
        simp [hcountry]
        omega
      · simp [hcountry, hcc, Ne.symm hcc]
    · simp [hcountry]

theorem lt_of_isRow (h : List.Forall₂ IsRow lines rows) :
    ∀ row ∈ rows, row.span.hi < 2 ^ row.family.bits := by
  induction h with
  | nil => exact List.forall_mem_nil _
  | cons hrow _ ih =>
    obtain ⟨_, _, _, _, hhi, _⟩ := hrow
    exact List.forall_mem_cons.mpr ⟨hhi.lt, ih⟩

/-! The filter of the chosen countries. -/

theorem mem_chosen : (∃ s ∈ chosen countries f rows, n ∈ s) ↔
    ∃ row ∈ rows, row.country ∈ countries ∧ row.family = f ∧ n ∈ row.span := by
  unfold chosen
  constructor
  · rintro ⟨s, hs, hn⟩
    obtain ⟨row, hrow, rfl⟩ := List.mem_map.mp hs
    rw [List.mem_filter, decide_eq_true_eq] at hrow
    exact ⟨row, hrow.1, hrow.2.1, hrow.2.2, hn⟩
  · rintro ⟨row, hrow, hcountry, hfamily, hn⟩
    exact ⟨row.span,
      List.mem_map_of_mem (List.mem_filter.mpr ⟨hrow, decide_eq_true ⟨hcountry, hfamily⟩⟩), hn⟩

theorem chosen_lt (h : ∀ row ∈ rows, row.span.hi < 2 ^ row.family.bits) :
    ∀ s ∈ chosen countries f rows, s.hi < 2 ^ f.bits := by
  intro s hs
  obtain ⟨row, hrow, rfl⟩ := List.mem_map.mp hs
  rw [List.mem_filter, decide_eq_true_eq] at hrow
  exact hrow.2.2 ▸ h row hrow.1

/-- What a list of rows is parsed to. -/
theorem parseDbip_rows {csvText : List Char}
    (hrows : List.Forall₂ IsRow ((csvText.splitOn '\n').filter (· ≠ [])) rows) :
    parseDbip csvText countries = .ok
      ⟨familyCidrs .v4 (chosen countries .v4 rows) ++ familyCidrs .v6 (chosen countries .v6 rows),
        rows.length,
        fun cc => (rows.filter fun row => row.country ∈ countries ∧ row.country = cc).length⟩ := by
  have hlt := lt_of_isRow hrows
  have hvalid : ∀ t ∈ familyCidrs .v4 (chosen countries .v4 rows) ++
    familyCidrs .v6 (chosen countries .v6 rows),
      isCidr t = true := by
    intro t ht
    obtain ⟨f, b, htext⟩ : ∃ f b, CidrText t f b := by
      rcases List.mem_append.mp ht with ht | ht
      · exact (familyCidrs_exact (chosen_lt hlt)).text t ht
      · exact (familyCidrs_exact (chosen_lt hlt)).text t ht
    exact isCidr_text htext
  have hnone :
    (familyCidrs .v4 (chosen countries .v4 rows) ++
      familyCidrs .v6 (chosen countries .v6 rows)).find?
      (fun cidr => !isCidr cidr) = none := by
    rw [List.find?_eq_none]
    intro t ht
    simp [hvalid t ht]
  unfold parseDbip
  rw [foldlM_readLine hrows]
  change (match (familyCidrs .v4 ((rows.foldl (Collected.add countries) _).spans .v4) ++
    familyCidrs .v6 ((rows.foldl (Collected.add countries) _).spans .v6)).find? fun cidr =>
      !isCidr cidr with
    | some cidr => _
    | none => _) = _
  rw [spans_foldl, spans_foldl, List.nil_append, List.nil_append, hnone]
  dsimp only
  rw [rows_foldl, Nat.zero_add]
  congr
  funext cc
  rw [perCountry_foldl, Nat.zero_add]

/-- A list of rows is parsed to networks of exactly its ranges of the chosen countries. -/
theorem exact_parseDbip {csvText : List Char}
    (hrows : List.Forall₂ IsRow ((csvText.splitOn '\n').filter (· ≠ [])) rows)
    (countries : List (List Char)) : ∃ parsed, parseDbip csvText countries = .ok parsed ∧
      Exact parsed.ranges fun f n => ∃ row ∈ rows, row.country ∈ countries ∧ row.family = f ∧
      n ∈ row.span := by
  have hlt := lt_of_isRow hrows
  refine ⟨_, parseDbip_rows hrows, ?_⟩
  have hexact :=
    fun f : Family => familyCidrs_exact (chosen_lt hlt : ∀ s ∈ chosen countries f rows,
      s.hi < 2 ^ f.bits)
  refine ((hexact .v4).append (hexact .v6) fun f n hboth => ?_).congr fun f n => ?_
  · exact absurd (hboth.1.1.symm.trans hboth.2.1) (by decide)
  · rw [← mem_chosen]
    cases f with
    | v4 => simp
    | v6 => simp

/-- The networks of a list are disjoint and hold exactly the ranges of the chosen countries; they
come from ranges with gaps between them, and no list of networks for the same addresses is shorter.
The same holds for a single range. -/
theorem parseDbip_exact {csvText : List Char}
    (hrows : List.Forall₂ IsRow ((csvText.splitOn '\n').filter (· ≠ [])) rows)
    (countries : List (List Char)) :
    (∃ parsed, parseDbip csvText countries = .ok parsed ∧
      Exact parsed.ranges (fun f n => ∃ row ∈ rows, row.country ∈ countries ∧ row.family = f ∧
        n ∈ row.span) ∧
      (∃ spans : Family → List Span, (∀ f, (spans f).Pairwise Span.Apart) ∧
        parsed.ranges = ((spans .v4).flatMap fun s => bigRangeToCidrs .v4 s.lo s.hi) ++
          (spans .v6).flatMap fun s => bigRangeToCidrs .v6 s.lo s.hi) ∧
      ∀ cs : Family → List DyadicBlock, (∀ f n, (∃ b ∈ cs f, n ∈ b) ↔
        ∃ row ∈ rows, row.country ∈ countries ∧ row.family = f ∧ n ∈ row.span) →
        parsed.ranges.length ≤ (cs .v4).length + (cs .v6).length) ∧
    ∀ f start fin lo hi, AddressText f start lo → AddressText f fin hi →
    ∃ cidrs, rangeToCidrs start fin = .ok cidrs ∧
      Exact cidrs (fun f' n => f' = f ∧ lo ≤ n ∧ n ≤ hi) ∧
      ∀ cs : List DyadicBlock, (∀ n, (∃ b ∈ cs, n ∈ b) ↔ lo ≤ n ∧ n ≤ hi) →
      cidrs.length ≤ cs.length := by
  have hlt := lt_of_isRow hrows
  constructor
  · obtain ⟨parsed, hparsed, hexact⟩ := exact_parseDbip hrows countries
    obtain rfl := Except.ok.inj (hparsed.symm.trans (parseDbip_rows hrows))
    refine ⟨_, hparsed, hexact,
      ⟨fun f => mergedSpans (chosen countries f rows), fun f => mergedSpans_apart, rfl⟩, ?_⟩
    intro cs hcs
    rw [List.length_append]
    refine Nat.add_le_add ?_ ?_
    · exact familyCidrs_length_le (chosen_lt hlt) fun n => (hcs _ n).trans mem_chosen.symm
    · exact familyCidrs_length_le (chosen_lt hlt) fun n => (hcs _ n).trans mem_chosen.symm
  · intro f start fin lo hi hlo hhi
    have hgreedy : DyadicBlock.Greedy hi lo (rangeBlocks f.bits lo hi) := rangeBlocks_greedy hhi.lt
    refine ⟨bigRangeToCidrs f lo hi, ?_, ?_, fun cs hcs => ?_⟩
    · unfold rangeToCidrs
      rw [familyOf_text hlo, familyOf_text hhi, if_neg (not_not_intro rfl), toBig_text hlo,
        toBig_text hhi]
      rfl
    · rw [bigRangeToCidrs_eq]
      refine (Exact.of_blocks (fun b hb => cidrText_of_mem hhi.lt hb) hgreedy.pairwise).congr fun f'
        n => ?_
      rw [hgreedy.mem]
    · rw [bigRangeToCidrs_eq, List.length_map]
      exact hgreedy.length_le hcs

/-- Two ranges that touch, of two countries, and one of the other family. -/
def sampleCsv : List Char :=
  "1.0.0.0,1.0.0.255,AU\n1.0.1.0,1.0.1.255,NZ\n2001:db8::,2001:db8::1,AU\n".toList

def sampleRows : List Row :=
  [⟨.v4, ⟨16777216, 16777471, by decide⟩, "AU".toList⟩,
    ⟨.v4, ⟨16777472, 16777727, by decide⟩, "NZ".toList⟩,
    ⟨.v6, ⟨0x20010db8 * 2 ^ 96, 0x20010db8 * 2 ^ 96 + 1, by decide⟩, "AU".toList⟩]

theorem sampleRows_rows :
    List.Forall₂ IsRow ((sampleCsv.splitOn '\n').filter (· ≠ [])) sampleRows := by
  have hlines : (sampleCsv.splitOn '\n').filter (· ≠ []) =
      ["1.0.0.0,1.0.0.255,AU".toList, "1.0.1.0,1.0.1.255,NZ".toList,
        "2001:db8::,2001:db8::1,AU".toList] := by decide +kernel
  have hgroups : ∀ g ∈ ["2001".toList, "db8".toList], isGroup g = true := by decide
  rw [hlines]
  refine .cons ⟨"1.0.0.0".toList, "1.0.0.255".toList, by decide +kernel, ?_, ?_, by decide⟩
    (.cons ⟨"1.0.1.0".toList, "1.0.1.255".toList, by decide +kernel, ?_, ?_, by decide⟩
      (.cons ⟨"2001:db8::".toList, "2001:db8::1".toList, by decide +kernel, ?_, ?_, by decide⟩
        .nil))
  · exact AddressText.v4 (a := 1) (b := 0) (c := 0) (d := 0) (by decide) (by decide) (by decide)
      (by decide)
  · exact AddressText.v4 (a := 1) (b := 0) (c := 0) (d := 255) (by decide) (by decide) (by decide)
      (by decide)
  · exact AddressText.v4 (a := 1) (b := 0) (c := 1) (d := 0) (by decide) (by decide) (by decide)
      (by decide)
  · exact AddressText.v4 (a := 1) (b := 0) (c := 1) (d := 255) (by decide) (by decide) (by decide)
      (by decide)
  · exact AddressText.v6Short hgroups (List.forall_mem_nil _) (by decide)
  · exact AddressText.v6Short hgroups
      (List.forall_mem_singleton.mpr (by decide : isGroup "1".toList = true)) (by decide)

theorem parseDbip_exact_sample :
    ∃ parsed, parseDbip sampleCsv ["AU".toList, "NZ".toList] = .ok parsed ∧
    Exact parsed.ranges (fun f n => ∃ row ∈ sampleRows, row.country ∈ ["AU".toList, "NZ".toList] ∧
      row.family = f ∧ n ∈ row.span) := by
  obtain ⟨⟨parsed, hparsed, hexact, -⟩, -⟩ :=
    parseDbip_exact sampleRows_rows ["AU".toList, "NZ".toList]
  exact ⟨parsed, hparsed, hexact⟩

end FloppyGuard.GeoFilter
