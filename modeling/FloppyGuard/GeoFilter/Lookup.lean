import FloppyGuard.GeoFilter.Countries
import FloppyGuard.Lib.Bisect
import FloppyGuard.Lib.Checked
import Mathlib.Data.List.Infix

/-! The countries of addresses (`buildLookup` of `geo-filter-stats.js`) beside the networks of the
filter. -/
namespace FloppyGuard.GeoStats

open Text GeoFilter

/-! The readers of the statistics. -/

/-- Decimal parts; another part makes NaN in the source and an error here. -/
def v4ToNum (a : List Char) : Except String ℕ :=
  (a.splitOn '.').foldlM (fun n o => (bigInt o).map fun k => n * 256 + k) 0

/-- As in `geo-filter.js`, without the check of the number of groups. -/
def v6ToBig (a : List Char) : Except String ℕ := do
  let groups ← v6Groups a
  groups.foldlM (fun n g => (hexBigInt g).map fun k => (n <<< 16) + k) 0

def toNum : Family → List Char → Except String ℕ
  | .v4 => v4ToNum
  | .v6 => v6ToBig

/-- `/^[A-Z]{2}$/` -/
def isCountryCode (cc : List Char) : Bool := cc.length = 2 && cc.all fun c => 'A' ≤ c && c ≤ 'Z'

structure Entry where
  lo : ℕ
  hi : ℕ
  country : List Char

def readLine (entries : Family → List Entry) (line : List Char) :
    Except String (Family → List Entry) :=
  if line = [] then .ok entries
  else
    match (trim line).splitOn ',' with
    | start :: fin :: cc :: _ =>
      if isCountryCode cc then do
        let lo ← toNum (familyOf start) start
        let hi ← toNum (familyOf start) fin
        return Function.update entries (familyOf start) (entries (familyOf start) ++ [⟨lo, hi, cc⟩])
      else .ok entries
    | _ => .ok entries

/-- Where the search for `x` goes on from an entry. -/
def side (x : ℕ) (e : Entry) : Ordering := if x < e.lo then .lt else if e.hi < x then .gt else .eq

def find (list : List Entry) (x : ℕ) : Option (List Char) :=
  (Bisect.bisect (side x) list).map Entry.country

/-- The characters of a zone: `[0-9a-zA-Z-.:]` -/
def isZoneChar (c : Char) : Bool := c.isAlphanum || c = '-' || c = '.' || c = ':'

/-- The text in front of a zone, if what follows `%` is one. -/
def cutZone (ip : List Char) : Option (List Char) :=
  match ip.dropWhile (· ≠ '%') with
  | [] => some ip
  | _ :: zone => if zone ≠ [] ∧ zone.all isZoneChar then some (ip.takeWhile (· ≠ '%')) else none

/-- A text whose last group is an IPv4 address has two groups there. -/
def groupsForDotted (a : List Char) : List Char :=
  let last := (a.reverse.takeWhile (· ≠ ':')).reverse
  if isIPv4 last ∧ ':' ∈ a then a.take (a.length - last.length) ++ "0:0".toList else a

/-- `net.isIPv6` -/
def netIsIPv6 (ip : List Char) : Bool := (cutZone ip).any fun a => isIPv6 (groupsForDotted a)

def lookupIn (entries : Family → List Entry) (ip : List Char) :
    Except String (Option (List Char)) :=
  if isIPv4 ip then (v4ToNum ip).map (find (entries .v4))
  else if netIsIPv6 ip then (v6ToBig ip).map (find (entries .v6))
  else .ok none

def buildLookup (csvText : List Char) :
    Except String (List Char → Except String (Option (List Char))) := do
  let entries ← (csvText.splitOn '\n').foldlM readLine fun _ => []
  return lookupIn fun f => (entries f).mergeSort fun a b => decide (a.lo ≤ b.lo)

variable {f : Family} {a line csvText cc : List Char} {row : Row} {rows : List Row}
  {lines : List (List Char)}
  {entries : Family → List Entry} {list : List Entry} {n : ℕ} {e : Entry}

/-! Addresses. -/

theorem v4ToNum_text (h : AddressText .v4 a n) : v4ToNum a = .ok n := by
  cases h with
  | @v4 a b c d ha hb hc hd =>
    rw [v4ToNum, splitOn_octets (List.cons_ne_nil _ _)]
    simp only [List.map_cons, List.map_nil, List.foldlM_cons, List.foldlM_nil, bigInt_toDigits]
    change Except.ok ((((0 * 256 + a) * 256 + b) * 256 + c) * 256 + d) = Except.ok _
    rw [Nat.zero_mul, Nat.zero_add]

/-- What the filter reads, the statistics read. -/
theorem v6ToBig_eq_ok (h : GeoFilter.v6ToBig a = .ok n) : v6ToBig a = .ok n := by
  obtain ⟨groups, hgroups, h⟩ := Checked.bind_eq_ok.mp h
  refine Checked.bind_eq_ok.mpr ⟨groups, hgroups, ?_⟩
  split at h
  · cases h
  · exact h

theorem toNum_text (h : AddressText f a n) : toNum f a = .ok n := by
  cases f with
  | v4 => exact v4ToNum_text h
  | v6 => exact v6ToBig_eq_ok (v6ToBig_of_text h)

/-- Without a zone and without dots, the text is the address itself. -/
theorem netIsIPv6_plain (hzone : '%' ∉ a) (hdot : '.' ∉ a) : netIsIPv6 a = isIPv6 a := by
  have hcut : cutZone a = some a := by
    have hnot : a.dropWhile (· ≠ '%') = [] := by
      refine List.dropWhile_eq_nil_iff.mpr fun c hc => decide_eq_true ?_
      rintro rfl
      exact hzone hc
    rw [cutZone, hnot]
  have hdotted : groupsForDotted a = a := by
    refine if_neg fun hlast => ?_
    have hdots : '.' ∈ (a.reverse.takeWhile (· ≠ ':')).reverse := by
      by_contra hnone
      rw [isIPv4, List.splitOn_eq_singleton hnone] at hlast
      exact absurd hlast.1 (by simp)
    exact hdot (List.mem_reverse.mp ((List.takeWhile_sublist _).subset (List.mem_reverse.mp hdots)))
  rw [netIsIPv6, hcut, Option.any_some, hdotted]

theorem netIsIPv6_text (h : AddressText .v6 a n) : netIsIPv6 a = true := by
  have hchars : ∀ c ∈ ['%', '.'], ¬ ((hexDigit c).isSome = true ∨ c = ':') := by decide
  have hnot : ∀ c ∈ ['%', '.'], c ∉ a := fun c hc hmem => hchars c hc (mem_v6 h hmem)
  rw [netIsIPv6_plain (hnot '%' (by simp)) (hnot '.' (by simp)), isIPv6_text h]

theorem lookupIn_text (h : AddressText f a n) : lookupIn entries a = .ok (find (entries f) n) := by
  cases f with
  | v4 =>
    rw [lookupIn, if_pos (isIPv4_text h), v4ToNum_text h]
    rfl
  | v6 =>
    rw [lookupIn, if_neg (Bool.eq_false_iff.mp (isIPv4_v6 h)), if_pos (netIsIPv6_text h),
      v6ToBig_eq_ok (v6ToBig_of_text h)]
    rfl

/-- An address that is written without a zone, and not as IPv6 with dots. -/
def isPlain (ip : List Char) : Bool := isIPv4 ip || ('%' ∉ ip && '.' ∉ ip)

/-- Of a plain address the country is looked up. -/
theorem lookupIn_plain (hip : (isIPv4 a || netIsIPv6 a) = true) (hplain : isPlain a = true) :
    ∃ found, lookupIn entries a = .ok found := by
  by_cases h4 : isIPv4 a = true
  · obtain ⟨n, hn⟩ := text_of_isIPv4 h4
    exact ⟨_, lookupIn_text hn⟩
  · obtain ⟨hzone, hdot⟩ : '%' ∉ a ∧ '.' ∉ a := by simpa [isPlain, h4] using hplain
    have h6 : netIsIPv6 a = true := by simpa [h4] using hip
    rw [netIsIPv6_plain hzone hdot] at h6
    obtain ⟨n, hn⟩ := text_of_isIPv6 h6
    exact ⟨_, lookupIn_text hn⟩

/-! The entries of a list of rows. -/

def Row.entry (row : Row) : Entry := ⟨row.span.lo, row.span.hi, row.country⟩

/-- The entries of one family. -/
def familyEntries (f : Family) (rows : List Row) : List Entry :=
  (rows.filter (·.family = f)).map Row.entry

theorem readLine_row (h : IsRow line row) (hcode : isCountryCode row.country = true) :
    readLine entries line =
    .ok (Function.update entries row.family (entries row.family ++ [Row.entry row])) := by
  obtain ⟨start, fin, hsplit, hlo, hhi⟩ := h.splitOn
  rw [readLine, if_neg h.ne_nil, hsplit]
  dsimp only
  rw [if_pos hcode, familyOf_text hlo, toNum_text hlo, toNum_text hhi]
  rfl

theorem foldlM_readLine (h : List.Forall₂ IsRow (lines.filter (· ≠ [])) rows)
    (hcodes : ∀ row ∈ rows, isCountryCode row.country = true) :
    lines.foldlM readLine entries = .ok fun f => entries f ++ familyEntries f rows := by
  induction lines generalizing rows entries with
  | nil =>
    cases h
    refine congrArg Except.ok (funext fun f => ?_)
    exact (List.append_nil _).symm
  | cons line lines ih =>
    rw [List.foldlM_cons]
    by_cases hne : line = []
    · subst hne
      exact ih h hcodes
    · rw [List.filter_cons_of_pos (by simpa using hne)] at h
      cases h with
      | @cons _ row _ rows hrow hrest =>
        rw [List.forall_mem_cons] at hcodes
        rw [readLine_row hrow hcodes.1]
        refine (ih hrest hcodes.2).trans (congrArg Except.ok (funext fun f => ?_))
        by_cases hf : f = row.family
        · subst hf
          rw [Function.update_self, familyEntries, familyEntries, List.filter_cons,
            if_pos (decide_eq_true rfl), List.map_cons,
            List.append_assoc, List.singleton_append]
        · rw [Function.update_of_ne hf, familyEntries, familyEntries,
            List.filter_cons_of_neg (by simpa using fun he => hf he.symm)]

/-! Sorted entries. -/

/-- Ranges none of which shares an address with another. -/
def Disjoint (list : List Entry) : Prop := list.Pairwise fun a b => a.hi < b.lo ∨ b.hi < a.lo

theorem sorted_pairwise (hle : ∀ e ∈ list, e.lo ≤ e.hi) (h : Disjoint list) :
    (list.mergeSort fun a b => decide (a.lo ≤ b.lo)).Pairwise fun a b => a.hi < b.lo := by
  have htrans : ∀ a b c : Entry, decide (a.lo ≤ b.lo) = true → decide (b.lo ≤ c.lo) = true →
      decide (a.lo ≤ c.lo) = true :=
    fun a b c hab hbc =>
      decide_eq_true (Nat.le_trans (of_decide_eq_true hab) (of_decide_eq_true hbc))
  have htotal : ∀ a b : Entry, (decide (a.lo ≤ b.lo) || decide (b.lo ≤ a.lo)) = true := by
    intro a b
    rw [Bool.or_eq_true, decide_eq_true_eq, decide_eq_true_eq]
    exact Nat.le_total a.lo b.lo
  have hperm : (list.mergeSort fun a b => decide (a.lo ≤ b.lo)).Perm list := List.mergeSort_perm _ _
  have hdisjoint : Disjoint (list.mergeSort fun a b => decide (a.lo ≤ b.lo)) :=
    hperm.symm.pairwise h fun hab => hab.symm
  refine (hdisjoint.and (List.pairwise_mergeSort htrans htotal list)).imp_of_mem fun {a b} ha hb
    hab => ?_
  have hb' := hle b (hperm.mem_iff.mp hb)
  have hlo : a.lo ≤ b.lo := of_decide_eq_true hab.2
  omega

theorem side_eq_iff : side n e = .eq ↔ e.lo ≤ n ∧ n ≤ e.hi := by
  unfold side
  split
  · exact iff_of_false nofun (by omega)
  split
  · exact iff_of_false nofun (by omega)
  · exact iff_of_true rfl (by omega)

theorem directed_side (hle : ∀ e ∈ list, e.lo ≤ e.hi) (h : list.Pairwise fun a b => a.hi < b.lo) :
    Bisect.Directed (side n) list := by
  refine h.imp_of_mem fun {a b} ha hb hab => ⟨fun hlt => ?_, fun hgt => ?_⟩
  · have := hle a ha
    unfold side at hlt ⊢
    split at hlt
    · rw [if_pos (by omega)]
    · split at hlt <;> cases hlt
  · have := hle a ha
    have := hle b hb
    unfold side at hgt ⊢
    split at hgt
    · cases hgt
    · split at hgt
      · rw [if_neg (by omega), if_pos (by omega)]
      · cases hgt

/-- The search gives the country of the range that holds the address. -/
theorem find_sorted (hle : ∀ e ∈ list, e.lo ≤ e.hi) (h : Disjoint list) :
    find (list.mergeSort fun a b => decide (a.lo ≤ b.lo)) n = some cc ↔ ∃ e ∈ list, e.country = cc ∧
    e.lo ≤ n ∧ n ≤ e.hi := by
  have hmem : ∀ {e}, e ∈ list.mergeSort (fun a b => decide (a.lo ≤ b.lo)) ↔ e ∈ list :=
    List.mem_mergeSort
  have hsorted := sorted_pairwise hle h
  have hle' : ∀ e ∈ list.mergeSort (fun a b => decide (a.lo ≤ b.lo)), e.lo ≤ e.hi :=
    fun e he => hle e (hmem.mp he)
  have hone : ∀ x ∈ list.mergeSort (fun a b => decide (a.lo ≤ b.lo)),
    ∀ y ∈ list.mergeSort (fun a b => decide (a.lo ≤ b.lo)),
      side n x = .eq → side n y = .eq → x = y := by
    have hnot : ∀ a b : Entry, a.hi < b.lo → side n a = .eq → side n b = .eq → False := by
      intro a b hab ha hb
      rw [side_eq_iff] at ha hb
      omega
    intro x hx y hy
    refine List.Pairwise.forall_of_forall_of_flip (R := fun x y => side n x = .eq → side n y = .eq →
      x = y)
      (fun x _ _ _ => rfl) (hsorted.imp fun hab ha hb => (hnot _ _ hab ha hb).elim)
      (hsorted.imp fun hab hb ha => (hnot _ _ hab ha hb).elim) hx hy
  rw [find, Option.map_eq_some_iff]
  constructor
  · rintro ⟨e, he, rfl⟩
    obtain ⟨he, hn⟩ := (Bisect.bisect_eq_some_iff (directed_side hle' hsorted) hone).mp he
    exact ⟨e, hmem.mp he, rfl, side_eq_iff.mp hn⟩
  · rintro ⟨e, he, rfl, hn⟩
    exact ⟨e, (Bisect.bisect_eq_some_iff (directed_side hle' hsorted) hone).mpr
      ⟨hmem.mpr he, side_eq_iff.mpr hn⟩, rfl⟩

/-! Both sides. -/

/-- No two rows of a family share an address. -/
def RowsDisjoint (rows : List Row) : Prop :=
  rows.Pairwise fun r r' => r.family = r'.family → r.span.hi < r'.span.lo ∨ r'.span.hi < r.span.lo

theorem familyEntries_le : ∀ e ∈ familyEntries f rows, e.lo ≤ e.hi := by
  intro e he
  obtain ⟨row, -, rfl⟩ := List.mem_map.mp he
  exact row.span.lo_le_hi

theorem familyEntries_disjoint (h : RowsDisjoint rows) : Disjoint (familyEntries f rows) := by
  rw [Disjoint, familyEntries, List.pairwise_map, List.pairwise_filter]
  refine h.imp fun {r r'} hrows hr hr' => hrows ?_
  rw [of_decide_eq_true hr, of_decide_eq_true hr']

/-- The country of an address is that of the row that holds it. -/
theorem buildLookup_spec (hrows : List.Forall₂ IsRow ((csvText.splitOn '\n').filter (· ≠ [])) rows)
    (hcodes : ∀ row ∈ rows, isCountryCode row.country = true) (hdisjoint : RowsDisjoint rows) :
    ∃ lookup, buildLookup csvText = .ok lookup ∧ ∀ f a n, AddressText f a n →
    ∃ found, lookup a = .ok found ∧
      ∀ cc, found = some cc ↔ ∃ row ∈ rows, row.country = cc ∧ row.family = f ∧ n ∈ row.span := by
  refine ⟨lookupIn fun f => (familyEntries f rows).mergeSort fun a b => decide (a.lo ≤ b.lo), ?_,
    fun f a n ha => ⟨_, lookupIn_text ha, fun cc => ?_⟩⟩
  · rw [buildLookup, foldlM_readLine hrows hcodes]
    rfl
  · rw [find_sorted familyEntries_le (familyEntries_disjoint hdisjoint), familyEntries]
    constructor
    · rintro ⟨e, he, rfl, hn⟩
      obtain ⟨row, hrow, rfl⟩ := List.mem_map.mp he
      rw [List.mem_filter, decide_eq_true_eq] at hrow
      exact ⟨row, hrow.1, rfl, hrow.2, hn⟩
    · rintro ⟨row, hrow, rfl, hfamily, hn⟩
      exact ⟨Row.entry row,
        List.mem_map_of_mem (List.mem_filter.mpr ⟨hrow, decide_eq_true hfamily⟩), rfl, hn⟩

/-- An address lies in a network of the chosen countries exactly when the statistics put it down to
one of them. -/
theorem filter_iff_lookup (hrows : List.Forall₂ IsRow ((csvText.splitOn '\n').filter (· ≠ [])) rows)
    (hcodes : ∀ row ∈ rows, isCountryCode row.country = true) (hdisjoint : RowsDisjoint rows)
    (countries : List (List Char)) :
    ∃ parsed lookup, parseDbip csvText countries = .ok parsed ∧ buildLookup csvText = .ok lookup ∧
      ∀ f a n, AddressText f a n → ((∃ t ∈ parsed.ranges, ∃ b, CidrText t f b ∧ n ∈ b) ↔
        ∃ cc ∈ countries, lookup a = .ok (some cc)) := by
  obtain ⟨parsed, hparsed, hexact⟩ := exact_parseDbip hrows countries
  obtain ⟨lookup, hlookup, hspec⟩ := buildLookup_spec hrows hcodes hdisjoint
  refine ⟨parsed, lookup, hparsed, hlookup, fun f a n ha => ?_⟩
  obtain ⟨found, hfound, hcountry⟩ := hspec f a n ha
  rw [hexact.mem]
  constructor
  · rintro ⟨row, hrow, hchosen, hfamily, hn⟩
    exact ⟨row.country, hchosen, by rw [hfound, (hcountry _).mpr ⟨row, hrow, rfl, hfamily, hn⟩]⟩
  · rintro ⟨cc, hchosen, hcc⟩
    rw [hfound] at hcc
    obtain ⟨row, hrow, rfl, hfamily, hn⟩ := (hcountry cc).mp (Except.ok.inj hcc)
    exact ⟨row, hrow, hchosen, hfamily, hn⟩

theorem filter_iff_lookup_sample : ∃ parsed lookup, parseDbip sampleCsv ["NZ".toList] = .ok parsed ∧
    buildLookup sampleCsv = .ok lookup ∧
    ∀ f a n, AddressText f a n → ((∃ t ∈ parsed.ranges, ∃ b, CidrText t f b ∧ n ∈ b) ↔
      ∃ cc ∈ ["NZ".toList], lookup a = .ok (some cc)) := by
  have hdisjoint : RowsDisjoint sampleRows := by
    unfold RowsDisjoint
    decide
  exact filter_iff_lookup sampleRows_rows (by decide) hdisjoint ["NZ".toList]

end FloppyGuard.GeoStats
