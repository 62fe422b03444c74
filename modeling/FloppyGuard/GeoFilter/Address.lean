import FloppyGuard.Lib.DyadicBlocks
import FloppyGuard.Lib.Text
import Mathlib.Data.List.Induction

/-! Addresses of both families and their text, as `geo-filter.js` reads and writes them. -/
namespace FloppyGuard.GeoFilter

open Text

inductive Family
  | v4
  | v6
deriving DecidableEq

def Family.bits : Family → ℕ
  | .v4 => 32
  | .v6 => 128

def hexDigit (c : Char) : Option ℕ :=
  if c.isDigit then some (c.toNat - 48)
  else if 'a' ≤ c ∧ c ≤ 'f' then some (c.toNat - 87)
  else if 'A' ≤ c ∧ c ≤ 'F' then some (c.toNat - 55)
  else none

def digitsValue (base : ℕ) (digits : List Char) : ℕ :=
  digits.foldl (fun n c => n * base + (hexDigit c).getD 0) 0

abbrev hexValue (g : List Char) : ℕ := digitsValue 16 g

/-- The base and the digits of a number that starts with `0x`, `0o` or `0b`. -/
def prefixed : List Char → Option (ℕ × List Char)
  | '0' :: c :: digits =>
    if c = 'x' ∨ c = 'X' then some (16, digits)
    else if c = 'o' ∨ c = 'O' then some (8, digits)
    else if c = 'b' ∨ c = 'B' then some (2, digits)
    else none
  | _ => none

/-- A plus sign in front of something is left out. -/
def unsigned : List Char → List Char
  | '+' :: c :: s => c :: s
  | s => s

/-- `BigInt` of a text; the empty text is 0. Only numbers below zero, which nothing here can be, are
refused as well. -/
def bigInt (s : List Char) : Except String ℕ :=
  let refused := .error ("Cannot convert " ++ String.ofList s ++ " to a BigInt")
  match prefixed (trim s) with
  | some (base, digits) =>
    if digits ≠ [] && digits.all fun c => (hexDigit c).any (· < base) then
      .ok (digitsValue base digits) else refused
  | none =>
    let digits := unsigned (trim s)
    if digits.all Char.isDigit then .ok (Nat.ofDigitChars 10 digits 0) else refused

def v4ToBig (a : List Char) : Except String ℕ :=
  (a.splitOn '.').foldlM (fun n o => (bigInt o).map fun k => (n <<< 8) + k) 0

/-- `BigInt` of a group behind `0x`; the empty group is 0. -/
def hexBigInt (g : List Char) : Except String ℕ :=
  bigInt ('0' :: 'x' :: if g = [] then ['0'] else g)

/-- The text before and behind the first `::`. -/
def cutDouble : List Char → Option (List Char × List Char)
  | [] => none
  | c :: s =>
    if c = ':' ∧ s.head? = some ':' then some ([], s.tail) else (cutDouble s).map fun p =>
      (c :: p.1, p.2)

/-- The groups of a part; an empty part has none. -/
def groupsOf (s : List Char) : List (List Char) := if s = [] then [] else s.splitOn ':'

/-- The groups of an address, with those that `::` stands for. -/
def v6Groups (a : List Char) : Except String (List (List Char)) :=
  match cutDouble a with
  | none => .ok (groupsOf a)
  | some (head, rest) =>
    let tail := ((cutDouble rest).map Prod.fst).getD rest
    let h := groupsOf head
    let t := groupsOf tail
    if 8 < h.length + t.length then .error "Invalid array length"
    else .ok (h ++ List.replicate (8 - h.length - t.length) ['0'] ++ t)

def v6ToBig (a : List Char) : Except String ℕ := do
  let groups ← v6Groups a
  if groups.length ≠ 8 then .error ("IPv6 ungültig: " ++ String.ofList a)
  else groups.foldlM (fun n g => (hexBigInt g).map fun k => (n <<< 16) + k) 0

def bigToV4 (n : ℕ) : List Char :=
  ['.'].intercalate ([24, 16, 8, 0].map fun s => Nat.toDigits 10 ((n >>> s) &&& 255))

def hexGroups (n : ℕ) : List (List Char) :=
  [112, 96, 80, 64, 48, 32, 16, 0].map fun s => Nat.toDigits 16 ((n >>> s) &&& 0xffff)

/-- The first of the longest runs of at least two zero groups: where it begins, and its length. -/
def bestRun (groups : List (List Char)) (i : ℕ) (best : Option (ℕ × ℕ)) : Option (ℕ × ℕ) :=
  match groups with
  | [] => best
  | g :: rest =>
    if g ≠ ['0'] then bestRun rest (i + 1) best
    else
      let run := (rest.takeWhile (· = ['0'])).length + 1
      bestRun (rest.dropWhile (· = ['0'])) (i + run)
        (if (best.map Prod.snd).getD 0 < run ∧ 1 < run then some (i, run) else best)
termination_by groups.length
decreasing_by
  · exact Nat.lt_succ_self _
  · exact Nat.lt_succ_of_le (List.length_dropWhile_le _ _)

def bigToV6 (n : ℕ) : List Char :=
  let groups := hexGroups n
  match bestRun groups 0 none with
  | none => [':'].intercalate groups
  | some (i, run) =>
    [':'].intercalate (groups.take i) ++ ':' :: ':' :: [':'].intercalate (groups.drop (i + run))

def bigToText : Family → ℕ → List Char
  | .v4 => bigToV4
  | .v6 => bigToV6

/-- `net.isIPv4` -/
def isIPv4 (s : List Char) : Bool :=
  (s.splitOn '.').length = 4 && (s.splitOn '.').all fun o => (number 3 o).any fun k => k ≤ 255 &&
    Nat.toDigits 10 k = o

def isGroup (g : List Char) : Bool := g ≠ [] && g.length ≤ 4 && g.all fun c => (hexDigit c).isSome

/-- `net.isIPv6` of a text of hexadecimal digits and colons -/
def isIPv6 (s : List Char) : Bool :=
  match cutDouble s with
  | none => (groupsOf s).length = 8 && (groupsOf s).all isGroup
  | some (head, tail) =>
    (groupsOf head).length + (groupsOf tail).length < 8 &&
      (groupsOf head ++ groupsOf tail).all isGroup

def isCidr (value : List Char) : Bool :=
  let addr := value.takeWhile (· ≠ '/')
  match value.dropWhile (· ≠ '/') with
  | [] => false
  | _ :: pre =>
    addr ≠ [] &&
    match number 3 pre with
    | none => false
    | some p =>
      if isIPv4 addr then p ≤ 32
      else addr.all (fun c => (hexDigit c).isSome || c = ':') && isIPv6 addr && p ≤ 128

/-- The value of groups, the first one the highest. -/
def groupsValue (groups : List (List Char)) : ℕ :=
  groups.foldl (fun n g => (n <<< 16) + hexValue g) 0

/-- The address texts: four decimal numbers, or eight groups, of which a row of zeros may be left
out. -/
inductive AddressText : Family → List Char → ℕ → Prop
  | v4 {a b c d : ℕ} (ha : a < 256) (hb : b < 256) (hc : c < 256) (hd : d < 256) :
      AddressText .v4 (['.'].intercalate ([a, b, c, d].map (Nat.toDigits 10)))
        (((a * 256 + b) * 256 + c) * 256 + d)
  | v6 {groups : List (List Char)} (hgroups : ∀ g ∈ groups, isGroup g = true)
      (hlen : groups.length = 8) :
      AddressText .v6 ([':'].intercalate groups) (groupsValue groups)
  | v6Short {head tail : List (List Char)} (hhead : ∀ g ∈ head, isGroup g = true)
      (htail : ∀ g ∈ tail, isGroup g = true)
      (hlen : head.length + tail.length < 8) :
      AddressText .v6 ([':'].intercalate head ++ ':' :: ':' :: [':'].intercalate tail)
        (groupsValue (head ++ List.replicate (8 - head.length - tail.length) ['0'] ++ tail))

variable {a g s t : List Char} {groups head tail : List (List Char)} {f f' : Family} {n m k : ℕ}

/-! Digits and groups. -/

theorem hexDigit_digitChar {d : ℕ} (h : d < 16) : hexDigit (Nat.digitChar d) = some d := by
  have hall : ∀ d : Fin 16, hexDigit (Nat.digitChar d) = some d.val := by decide
  exact hall ⟨d, h⟩

/-- A digit or one of the first six letters, of either case. -/
theorem range_of_hexDigit {c : Char} {d : ℕ} (h : hexDigit c = some d) :
    (48 ≤ c.toNat ∧ c.toNat ≤ 57 ∧ d = c.toNat - 48) ∨
      (97 ≤ c.toNat ∧ c.toNat ≤ 102 ∧ d = c.toNat - 87) ∨
      (65 ≤ c.toNat ∧ c.toNat ≤ 70 ∧ d = c.toNat - 55) := by
  unfold hexDigit at h
  split at h
  · next hc =>
    have hle : 48 ≤ c.toNat ∧ c.toNat ≤ 57 := Char.isDigit_iff_toNat.mp hc
    exact .inl ⟨hle.1, hle.2, (Option.some.inj h).symm⟩
  split at h
  · next hc => exact .inr (.inl ⟨hc.1, hc.2, (Option.some.inj h).symm⟩)
  split at h
  · next hc => exact .inr (.inr ⟨hc.1, hc.2, (Option.some.inj h).symm⟩)
  · cases h

theorem hexDigit_lt {c : Char} {d : ℕ} (h : hexDigit c = some d) : d < 16 := by
  rcases range_of_hexDigit h with hc | hc | hc <;> omega

theorem isSpace_hexDigit {c : Char} (h : (hexDigit c).isSome = true) : isSpace c = false := by
  obtain ⟨d, hd⟩ := Option.isSome_iff_exists.mp h
  by_contra hspace
  rw [Bool.not_eq_false] at hspace
  simp only [isSpace, Bool.or_eq_true, Bool.and_eq_true, decide_eq_true_eq, beq_iff_eq] at hspace
  rcases range_of_hexDigit hd with hc | hc | hc <;> omega

theorem prefixed_of_digits (h : ∀ c ∈ s, c.isDigit = true) : prefixed s = none := by
  unfold prefixed
  split
  · next c digits =>
    have hc : c.isDigit = true := h c (by simp)
    have hne : ∀ d : Char, d.isDigit = false → c ≠ d := fun d hd he => by simp [he, hd] at hc
    simp only [hne 'x' rfl, hne 'X' rfl, hne 'o' rfl, hne 'O' rfl, hne 'b' rfl, hne 'B' rfl,
      or_self, if_false]
  · rfl

theorem unsigned_of_digits (h : ∀ c ∈ s, c.isDigit = true) : unsigned s = s := by
  unfold unsigned
  split
  · next c t =>
    have hplus : '+'.isDigit = true := h '+' List.mem_cons_self
    cases hplus
  · rfl

theorem hexValue_append {c : Char} :
    hexValue (s ++ [c]) = hexValue s * 16 + (hexDigit c).getD 0 := by
  simp [digitsValue]

theorem hexValue_toDigits : hexValue (Nat.toDigits 16 n) = n := by
  induction n using Nat.strongRecOn with
  | ind n ih =>
    rw [Nat.toDigits_eq_if (by omega)]
    split
    · next hn => simp [digitsValue, hexDigit_digitChar hn]
    · next hn =>
      rw [hexValue_append, ih _ (by omega), hexDigit_digitChar (Nat.mod_lt _ (by omega)),
        Option.getD_some]
      omega

theorem hex_of_mem_toDigits {c : Char} (h : c ∈ Nat.toDigits 16 n) : (hexDigit c).isSome := by
  induction n using Nat.strongRecOn with
  | ind n ih =>
    rw [Nat.toDigits_eq_if (by omega)] at h
    split at h
    · next hn =>
      rw [List.mem_singleton.mp h, hexDigit_digitChar hn]
      rfl
    · next hn =>
      rcases List.mem_append.mp h with h | h
      · exact ih _ (by omega) h
      · rw [List.mem_singleton.mp h, hexDigit_digitChar (Nat.mod_lt _ (by omega))]
        rfl

theorem isGroup_iff :
    isGroup g = true ↔ g ≠ [] ∧ g.length ≤ 4 ∧ ∀ c ∈ g, (hexDigit c).isSome = true := by
  simp [isGroup, and_assoc]

theorem isGroup_toDigits (h : n < 65536) : isGroup (Nat.toDigits 16 n) = true := by
  rw [isGroup_iff]
  refine ⟨Nat.toDigits_ne_nil, ?_, fun c hc => hex_of_mem_toDigits hc⟩
  rw [Nat.length_toDigits_le_iff (by omega) (by omega)]
  omega

/-- A group is visible, and holds no separator. -/
theorem plain_of_isGroup (h : isGroup g = true) : g ≠ [] ∧ ':' ∉ g := by
  rw [isGroup_iff] at h
  refine ⟨h.1, fun hc => ?_⟩
  have hcolon : (hexDigit ':').isSome = true := h.2.2 _ hc
  revert hcolon
  decide

/-! Cutting at the colons. -/

theorem cutDouble_append (hg : ':' ∉ g) :
    cutDouble (g ++ t) = (cutDouble t).map fun p => (g ++ p.1, p.2) := by
  induction g with
  | nil => simp
  | cons c g ih =>
    rw [List.mem_cons, not_or] at hg
    rw [List.cons_append, cutDouble, if_neg fun h => hg.1 h.1.symm, ih hg.2, Option.map_map]
    rfl

theorem cutDouble_colon (ht : t.head? ≠ some ':') :
    cutDouble (':' :: t) = (cutDouble t).map fun p => (':' :: p.1, p.2) := by
  rw [cutDouble, if_neg fun h => ht h.2]

theorem head?_join (hg : g ≠ [] ∧ ':' ∉ g) :
    ([':'].intercalate (g :: groups) ++ t).head? ≠ some ':' := by
  intro h
  obtain ⟨c, g', rfl⟩ := List.exists_cons_of_ne_nil hg.1
  have hc : c = ':' := by
    cases groups with
    | nil => simpa using h
    | cons g₂ groups => simpa [List.intercalate_cons_cons] using h
  exact hg.2 (hc ▸ List.mem_cons_self)

/-- Joined groups hold no `::`. -/
theorem cutDouble_join (h : ∀ g ∈ groups, g ≠ [] ∧ ':' ∉ g) :
    cutDouble ([':'].intercalate groups) = none := by
  induction groups with
  | nil => rfl
  | cons g groups ih =>
    rw [List.forall_mem_cons] at h
    cases groups with
    | nil =>
      have hone := cutDouble_append (t := []) h.1.2
      rw [List.append_nil] at hone
      rw [List.intercalate_singleton, hone]
      rfl
    | cons g' groups =>
      have hhead : (([':'].intercalate (g' :: groups)) ++ []).head? ≠ some ':' :=
        head?_join (h.2 g' List.mem_cons_self)
      rw [List.append_nil] at hhead
      rw [List.intercalate_cons_cons, List.append_assoc, cutDouble_append h.1.2,
        List.singleton_append,
        cutDouble_colon hhead, ih h.2]
      rfl

/-- The first `::` is the one behind the joined groups. -/
theorem cutDouble_join_append (h : ∀ g ∈ groups, g ≠ [] ∧ ':' ∉ g) :
    cutDouble ([':'].intercalate groups ++ ':' :: ':' :: t) =
      some ([':'].intercalate groups, t) := by
  induction groups with
  | nil => rfl
  | cons g groups ih =>
    rw [List.forall_mem_cons] at h
    cases groups with
    | nil =>
      rw [List.intercalate_singleton, cutDouble_append h.1.2]
      simp [cutDouble]
    | cons g' groups =>
      rw [List.intercalate_cons_cons, List.append_assoc, List.append_assoc, cutDouble_append h.1.2,
        List.singleton_append,
        cutDouble_colon (head?_join (h.2 g' List.mem_cons_self)), ih h.2]
      simp

theorem groupsOf_join (h : ∀ g ∈ groups, g ≠ [] ∧ ':' ∉ g) :
    groupsOf ([':'].intercalate groups) = groups := splitOn_join h

/-! Reading an address text. -/

theorem hexBigInt_group (h : isGroup g = true) : hexBigInt g = .ok (hexValue g) := by
  obtain ⟨hne, -, hdigits⟩ := isGroup_iff.mp h
  have htrim : trim ('0' :: 'x' :: g) = '0' :: 'x' :: g := by
    refine trim_of_forall fun c hc => ?_
    rcases List.mem_cons.mp hc with rfl | hc
    · rfl
    rcases List.mem_cons.mp hc with rfl | hc
    · rfl
    · exact isSpace_hexDigit (hdigits c hc)
  have hprefixed : prefixed ('0' :: 'x' :: g) = some (16, g) := rfl
  have hall : (g ≠ [] && g.all fun c => (hexDigit c).any (· < 16)) = true := by
    rw [Bool.and_eq_true, decide_eq_true_eq, List.all_eq_true]
    refine ⟨hne, fun c hc => ?_⟩
    obtain ⟨d, hd⟩ := Option.isSome_iff_exists.mp (hdigits c hc)
    rw [hd, Option.any_some, decide_eq_true_eq]
    exact hexDigit_lt hd
  rw [hexBigInt, if_neg hne, bigInt, htrim, hprefixed]
  exact if_pos hall

theorem foldlM_groups (h : ∀ g ∈ groups, isGroup g = true) :
    groups.foldlM (fun n g => (hexBigInt g).map fun k => (n <<< 16) + k) m =
      .ok (groups.foldl (fun n g => (n <<< 16) + hexValue g) m) := by
  induction groups generalizing m with
  | nil => rfl
  | cons g groups ih =>
    rw [List.forall_mem_cons] at h
    rw [List.foldlM_cons, hexBigInt_group h.1]
    exact ih h.2

theorem v6ToBig_groups (hread : v6Groups a = .ok groups) (hlen : groups.length = 8)
    (h : ∀ g ∈ groups, isGroup g = true) :
    v6ToBig a = .ok (groupsValue groups) := by
  unfold v6ToBig
  rw [hread]
  change (if groups.length ≠ 8 then _ else _) = _
  rw [if_neg (not_not_intro hlen), foldlM_groups h]
  rfl

theorem isGroup_zeros (h : g ∈ head ++ List.replicate n ['0'] ++ tail)
    (hhead : ∀ g ∈ head, isGroup g = true) (htail : ∀ g ∈ tail, isGroup g = true) :
    isGroup g = true := by
  rw [List.mem_append, List.mem_append] at h
  rcases h with (h | h) | h
  · exact hhead g h
  · rw [List.eq_of_mem_replicate h]
    decide
  · exact htail g h

theorem v6ToBig_of_text (h : AddressText .v6 a n) : v6ToBig a = .ok n := by
  cases h with
  | v6 hgroups hlen =>
    have hplain := fun g hg => plain_of_isGroup (hgroups g hg)
    refine v6ToBig_groups ?_ hlen hgroups
    rw [v6Groups, cutDouble_join hplain, groupsOf_join hplain]
  | @v6Short head tail hhead htail hlen =>
    have hplainHead := fun g hg => plain_of_isGroup (hhead g hg)
    have hplainTail := fun g hg => plain_of_isGroup (htail g hg)
    refine v6ToBig_groups ?_ ?_ fun g hg => isGroup_zeros hg hhead htail
    · rw [v6Groups, cutDouble_join_append hplainHead]
      dsimp only
      rw [cutDouble_join hplainTail]
      simp only [Option.map_none, Option.getD_none, groupsOf_join hplainHead,
        groupsOf_join hplainTail]
      rw [if_neg (by omega)]
    · rw [List.length_append, List.length_append, List.length_replicate]
      omega

theorem bigInt_toDigits : bigInt (Nat.toDigits 10 n) = .ok n := by
  have hdigit : ∀ c ∈ Nat.toDigits 10 n, c.isDigit = true := fun c hc => mem_toDigits_isDigit hc
  have htrim : trim (Nat.toDigits 10 n) = Nat.toDigits 10 n :=
    trim_of_forall fun c hc => isSpace_eq_false_of_isDigit (hdigit c hc)
  rw [bigInt, htrim, prefixed_of_digits hdigit]
  dsimp only
  rw [unsigned_of_digits hdigit, if_pos (List.all_eq_true.mpr hdigit),
    Nat.ofDigitChars_ten_toDigits]

theorem splitOn_octets {ks : List ℕ} (hks : ks ≠ []) :
    (['.'].intercalate (ks.map (Nat.toDigits 10))).splitOn '.' = ks.map (Nat.toDigits 10) := by
  refine List.splitOn_intercalate _ (fun l hl => ?_) (by simpa using hks)
  obtain ⟨k, -, rfl⟩ := List.mem_map.mp hl
  exact not_mem_toDigits (by decide)

theorem v4ToBig_of_text (h : AddressText .v4 a n) : v4ToBig a = .ok n := by
  cases h with
  | @v4 a b c d ha hb hc hd =>
    rw [v4ToBig, splitOn_octets (List.cons_ne_nil _ _)]
    simp only [List.map_cons, List.map_nil, List.foldlM_cons, List.foldlM_nil, bigInt_toDigits]
    change Except.ok ((((((0 <<< 8) + a) <<< 8) + b) <<< 8 + c) <<< 8 + d) = Except.ok _
    simp [Nat.shiftLeft_eq]

/-! Values lie within the family. -/

theorem hexValue_lt (g : List Char) : hexValue g < 16 ^ g.length := by
  induction g using List.reverseRecOn with
  | nil => exact Nat.one_pos
  | append_singleton g c ih =>
    have hdigit : (hexDigit c).getD 0 < 16 := by
      cases hd : hexDigit c with
      | none => exact Nat.succ_pos _
      | some d => exact hexDigit_lt hd
    rw [hexValue_append, List.length_append, List.length_singleton, Nat.pow_succ]
    omega

theorem groupsValue_lt (h : ∀ g ∈ groups, isGroup g = true) :
    groupsValue groups < 2 ^ (16 * groups.length) := by
  induction groups using List.reverseRecOn with
  | nil => exact Nat.one_pos
  | append_singleton groups g ih =>
    rw [List.forall_mem_append] at h
    have hgroup : hexValue g < 65536 := by
      have hlen := (isGroup_iff.mp (h.2 g List.mem_cons_self)).2.1
      have hpow : 16 ^ g.length ≤ 16 ^ 4 := Nat.pow_le_pow_right (by omega) hlen
      exact Nat.lt_of_lt_of_le (hexValue_lt g) hpow
    have hgroups := ih h.1
    have hvalue : groupsValue (groups ++ [g]) = groupsValue groups * 65536 + hexValue g := by
      simp [groupsValue, Nat.shiftLeft_eq]
    have hpow : 2 ^ (16 * (groups.length + 1)) = 2 ^ (16 * groups.length) * 65536 := by
      rw [Nat.mul_succ, Nat.pow_add]
    rw [hvalue, List.length_append, List.length_singleton, hpow]
    omega

theorem AddressText.lt (h : AddressText f a n) : n < 2 ^ f.bits := by
  cases h with
  | v4 ha hb hc hd =>
    change _ < 2 ^ 32
    omega
  | v6 hgroups hlen =>
    have hlt := groupsValue_lt hgroups
    rw [hlen] at hlt
    exact hlt
  | @v6Short head tail hhead htail hlen =>
    have hgroups : ∀ g ∈ head ++ List.replicate (8 - head.length - tail.length) ['0'] ++ tail,
        isGroup g = true :=
      fun g hg => isGroup_zeros hg hhead htail
    have hlt := groupsValue_lt hgroups
    have hcount : (head ++ List.replicate (8 - head.length - tail.length) ['0'] ++ tail).length =
        8 := by
      rw [List.length_append, List.length_append, List.length_replicate]
      omega
    rw [hcount] at hlt
    exact hlt

/-! The two families do not share a text, and a text has one value. -/

theorem colon_mem_v6 (h : AddressText .v6 a n) : ':' ∈ a := by
  cases h with
  | @v6 groups hgroups hlen =>
    obtain ⟨g, g', rest, rfl⟩ : ∃ g g' rest, groups = g :: g' :: rest := by
      match groups, hlen with
      | g :: g' :: rest, _ => exact ⟨g, g', rest, rfl⟩
    rw [List.intercalate_cons_cons]
    simp
  | v6Short => simp

theorem mem_v4 {c : Char} (h : AddressText .v4 a n) (hc : c ∈ a) : c = '.' ∨ c.isDigit = true := by
  cases h with
  | v4 ha hb hc' hd =>
    rcases mem_of_mem_intercalate hc with hc | ⟨l, hl, hc⟩
    · exact .inl (List.mem_singleton.mp hc)
    · obtain ⟨k, -, rfl⟩ := List.mem_map.mp hl
      exact .inr (mem_toDigits_isDigit hc)

theorem ne_nil_v4 (h : AddressText .v4 a n) : a ≠ [] := by
  cases h
  simp [List.intercalate_cons_cons]

theorem colon_notMem_v4 (h : AddressText .v4 a n) : ':' ∉ a := by
  intro hc
  have hnot := mem_v4 h hc
  revert hnot
  decide

theorem AddressText.unique (h : AddressText f a n) (h' : AddressText f' a m) : f = f' ∧ n = m := by
  cases f with
  | v4 =>
    cases f' with
    | v4 =>
      have heq := (v4ToBig_of_text h).symm.trans (v4ToBig_of_text h')
      exact ⟨rfl, Except.ok.inj heq⟩
    | v6 => exact absurd (colon_mem_v6 h') (colon_notMem_v4 h)
  | v6 =>
    cases f' with
    | v4 => exact absurd (colon_mem_v6 h) (colon_notMem_v4 h')
    | v6 =>
      have heq := (v6ToBig_of_text h).symm.trans (v6ToBig_of_text h')
      exact ⟨rfl, Except.ok.inj heq⟩

/-! Writing an address. -/

theorem shift_and_add (n s k : ℕ) :
    (n >>> (s + k)) * 2 ^ k + ((n >>> s) &&& (2 ^ k - 1)) = n >>> s := by
  rw [Nat.shiftRight_add, Nat.shiftRight_eq_div_pow _ k, Nat.and_two_pow_sub_one_eq_mod]
  exact Nat.div_add_mod' _ _

theorem shiftRight_lt (h : n < 2 ^ (k + m)) : n >>> k < 2 ^ m := by
  rw [Nat.shiftRight_eq_div_pow, Nat.div_lt_iff_lt_mul (Nat.two_pow_pos k), ← Nat.pow_add,
    Nat.add_comm]
  exact h

theorem bigToV4_text (h : n < 2 ^ 32) : AddressText .v4 (bigToV4 n) n := by
  have hlt : ∀ s, (n >>> s) &&& 255 < 256 := fun s => Nat.and_lt_two_pow _ (by decide : 255 < 2 ^ 8)
  have h24 : (n >>> 24) &&& 255 = n >>> 24 :=
    Nat.and_two_pow_sub_one_of_lt_two_pow (n := 8) (shiftRight_lt h)
  have h16 : (n >>> 24) * 256 + ((n >>> 16) &&& 255) = n >>> 16 := shift_and_add n 16 8
  have h8 : (n >>> 16) * 256 + ((n >>> 8) &&& 255) = n >>> 8 := shift_and_add n 8 8
  have h0 : (n >>> 8) * 256 + ((n >>> 0) &&& 255) = n := shift_and_add n 0 8
  have htext := AddressText.v4 (hlt 24) (hlt 16) (hlt 8) (hlt 0)
  rw [h24, h16, h8, h0, ← h24] at htext
  exact htext

theorem hexGroups_isGroup (h : g ∈ hexGroups n) : isGroup g = true := by
  obtain ⟨s, -, rfl⟩ := List.mem_map.mp h
  exact isGroup_toDigits (Nat.and_lt_two_pow _ (by decide : 0xffff < 2 ^ 16))

theorem groupsValue_hexGroups (h : n < 2 ^ 128) : groupsValue (hexGroups n) = n := by
  have htop : (n >>> 112) &&& 0xffff = n >>> 112 :=
    Nat.and_two_pow_sub_one_of_lt_two_pow (n := 16) (shiftRight_lt h)
  have hstep : ∀ s, ((n >>> (s + 16)) <<< 16) + ((n >>> s) &&& 0xffff) = n >>> s := fun s => by
    rw [Nat.shiftLeft_eq]
    exact shift_and_add n s 16
  unfold groupsValue hexGroups
  simp only [List.map_cons, List.map_nil, List.foldl_cons, List.foldl_nil, hexValue_toDigits,
    Nat.zero_shiftLeft, Nat.zero_add,
    htop]
  rw [hstep 96, hstep 80, hstep 64, hstep 48, hstep 32, hstep 16, hstep 0]
  rfl

theorem takeWhile_zeros {rest : List (List Char)} : rest.takeWhile (fun g => decide (g = ['0'])) =
    List.replicate (rest.takeWhile fun g => decide (g = ['0'])).length ['0'] := by
  refine List.eq_replicate_of_mem fun g hg => ?_
  have hzero := List.mem_takeWhile_imp hg
  exact of_decide_eq_true hzero

/-- The run is one of zeros, among the groups from `i` on. -/
theorem bestRun_spec {all : List (List Char)} {i : ℕ} {best : Option (ℕ × ℕ)}
    (hdrop : all.drop i = groups)
    (hbest : ∀ p ∈ best, (all.drop p.1).take p.2 = List.replicate p.2 ['0'] ∧
      p.1 + p.2 ≤ all.length ∧ 1 < p.2) :
    ∀ p ∈ bestRun groups i best,
      (all.drop p.1).take p.2 = List.replicate p.2 ['0'] ∧ p.1 + p.2 ≤ all.length ∧ 1 < p.2 := by
  fun_induction bestRun groups i best with
  | case1 => exact hbest
  | case2 i best g rest hg ih =>
    refine ih ?_ hbest
    rw [← List.drop_drop, hdrop]
    rfl
  | case3 i best g rest hg run ih =>
    have hzero : g = ['0'] := not_not.mp hg
    have hrest : rest.takeWhile (fun g => decide (g = ['0'])) ++
        rest.dropWhile (fun g => decide (g = ['0'])) = rest :=
      List.takeWhile_append_dropWhile
    have htake := congrArg (List.take (rest.takeWhile fun g => decide (g = ['0'])).length) hrest
    have hleft := congrArg (List.drop (rest.takeWhile fun g => decide (g = ['0'])).length) hrest
    rw [List.take_left] at htake
    rw [List.drop_left] at hleft
    refine ih ?_ fun p hp => ?_
    · rw [← List.drop_drop, hdrop, List.drop_succ_cons]
      exact hleft.symm
    · split at hp
      · next hlong =>
        obtain rfl : (i, run) = p := Option.some.inj hp
        refine ⟨?_, ?_, hlong.2⟩
        · rw [hdrop, hzero, List.take_succ_cons, ← htake, List.replicate_succ]
          exact congrArg _ takeWhile_zeros
        · have hlen := congrArg List.length hdrop
          have hsplit := congrArg List.length hrest
          rw [List.length_drop, List.length_cons] at hlen
          rw [List.length_append] at hsplit
          change i + ((rest.takeWhile fun g => decide (g = ['0'])).length + 1) ≤ all.length
          omega
      · exact hbest p hp

theorem bigToV6_text (h : n < 2 ^ 128) : AddressText .v6 (bigToV6 n) n := by
  have hgroups : ∀ g ∈ hexGroups n, isGroup g = true := fun g hg => hexGroups_isGroup hg
  have hvalue := groupsValue_hexGroups h
  have hspec : ∀ p ∈ bestRun (hexGroups n) 0 none,
    ((hexGroups n).drop p.1).take p.2 = List.replicate p.2 ['0'] ∧
      p.1 + p.2 ≤ (hexGroups n).length ∧ 1 < p.2 := bestRun_spec rfl (by simp)
  unfold bigToV6
  dsimp only
  split
  · have htext := AddressText.v6 hgroups rfl
    rw [hvalue] at htext
    exact htext
  · next i run hrun =>
    obtain ⟨hzeros, hle, hlong⟩ := hspec _ hrun
    have hlen : (hexGroups n).length = 8 := rfl
    have htake : ((hexGroups n).take i).length = i := by
      rw [List.length_take]
      omega
    have hdrop : ((hexGroups n).drop (i + run)).length = 8 - i - run := by
      rw [List.length_drop]
      omega
    have hhead : ∀ g ∈ (hexGroups n).take i, isGroup g = true :=
      fun g hg => hgroups g (List.mem_of_mem_take hg)
    have htail : ∀ g ∈ (hexGroups n).drop (i + run), isGroup g = true :=
      fun g hg => hgroups g (List.mem_of_mem_drop hg)
    have htext := AddressText.v6Short hhead htail (by omega)
    have hall : (hexGroups n).take i ++ List.replicate (8 - ((hexGroups n).take i).length -
        ((hexGroups n).drop (i + run)).length) ['0'] ++ (hexGroups n).drop (i + run) =
          hexGroups n := by
      have hcount : 8 - i - (8 - i - run) = run := by omega
      rw [htake, hdrop, hcount, ← hzeros, List.append_assoc, ← List.drop_drop,
        List.take_append_drop, List.take_append_drop]
    rw [hall, hvalue] at htext
    exact htext

theorem bigToText_text (h : n < 2 ^ f.bits) : AddressText f (bigToText f n) n := by
  cases f with
  | v4 => exact bigToV4_text h
  | v6 => exact bigToV6_text h

/-! CIDR texts. -/

/-- An address, a slash and the number of bits before the block's own. -/
def CidrText (t : List Char) (f : Family) (b : DyadicBlock) : Prop :=
  ∃ a p, t = a ++ '/' :: Nat.toDigits 10 p ∧ p ≤ f.bits ∧ b.size = f.bits - p ∧
    AddressText f a b.start

theorem CidrText.unique {b b' : DyadicBlock} (h : CidrText t f b) (h' : CidrText t f' b') :
    f = f' ∧ b = b' := by
  obtain ⟨a, p, rfl, hp, hsize, haddr⟩ := h
  obtain ⟨a', p', htext, hp', hsize', haddr'⟩ := h'
  obtain ⟨rfl, hdigits⟩ :=
    cut_last_inj (not_mem_toDigits (by decide)) (not_mem_toDigits (by decide)) htext
  have hpp : p = p' := by
    rw [← Nat.ofDigitChars_ten_toDigits (n := p), hdigits, Nat.ofDigitChars_ten_toDigits]
  obtain ⟨rfl, hstart⟩ := haddr.unique haddr'
  subst hpp
  exact ⟨rfl, DyadicBlock.ext hstart (hsize.trans hsize'.symm)⟩

theorem isIPv4_text (h : AddressText .v4 a n) : isIPv4 a = true := by
  cases h with
  | @v4 a b c d ha hb hc hd =>
    have hoctet : ∀ k, k < 256 → ((number 3 (Nat.toDigits 10 k)).any fun m => decide (m ≤ 255) &&
        decide (Nat.toDigits 10 m = Nat.toDigits 10 k)) = true := by
      intro k hk
      rw [number_toDigits (by omega) (by omega)]
      simp
      omega
    rw [isIPv4, splitOn_octets (List.cons_ne_nil _ _)]
    simp only [List.map_cons, List.map_nil, List.all_cons, List.all_nil, hoctet a ha, hoctet b hb,
      hoctet c hc, hoctet d hd]
    rfl

theorem mem_v6 {c : Char} (h : AddressText .v6 a n) (hc : c ∈ a) :
    (hexDigit c).isSome = true ∨ c = ':' := by
  have hjoin : ∀ groups : List (List Char), (∀ g ∈ groups, isGroup g = true) →
    c ∈ [':'].intercalate groups →
      (hexDigit c).isSome = true ∨ c = ':' := by
    intro groups hgroups hc
    rcases mem_of_mem_intercalate hc with hc | ⟨g, hg, hc⟩
    · exact .inr (List.mem_singleton.mp hc)
    · exact .inl ((isGroup_iff.mp (hgroups g hg)).2.2 c hc)
  cases h with
  | v6 hgroups hlen => exact hjoin _ hgroups hc
  | v6Short hhead htail hlen =>
    rcases List.mem_append.mp hc with hc | hc
    · exact hjoin _ hhead hc
    · rw [List.mem_cons, List.mem_cons] at hc
      rcases hc with rfl | rfl | hc
      · exact .inr rfl
      · exact .inr rfl
      · exact hjoin _ htail hc

theorem isIPv4_v6 (h : AddressText .v6 a n) : isIPv4 a = false := by
  have hdot : '.' ∉ a := by
    intro hc
    have hnot := mem_v6 h hc
    revert hnot
    decide
  rw [isIPv4, List.splitOn_eq_singleton hdot]
  rfl

theorem isIPv6_text (h : AddressText .v6 a n) : isIPv6 a = true := by
  cases h with
  | v6 hgroups hlen =>
    have hplain := fun g hg => plain_of_isGroup (hgroups g hg)
    rw [isIPv6, cutDouble_join hplain]
    simp only [groupsOf_join hplain, hlen, decide_true, Bool.true_and]
    exact List.all_eq_true.mpr hgroups
  | v6Short hhead htail hlen =>
    have hplainHead := fun g hg => plain_of_isGroup (hhead g hg)
    have hplainTail := fun g hg => plain_of_isGroup (htail g hg)
    rw [isIPv6, cutDouble_join_append hplainHead]
    simp only [groupsOf_join hplainHead, groupsOf_join hplainTail, hlen, decide_true, Bool.true_and]
    rw [List.all_append, List.all_eq_true.mpr hhead, List.all_eq_true.mpr htail]
    rfl

/-! What is accepted is an address text. -/

theorem text_of_isIPv4 (h : isIPv4 a = true) : ∃ n, AddressText .v4 a n := by
  have hjoin : ['.'].intercalate (a.splitOn '.') = a := List.intercalate_splitOn '.'
  rw [isIPv4, Bool.and_eq_true_iff, decide_eq_true_eq] at h
  have hoctet : ∀ o ∈ a.splitOn '.', ∃ k < 256, o = Nat.toDigits 10 k := by
    intro o ho
    obtain ⟨k, -, hk⟩ := (Option.any_eq_true _ _).mp (List.all_eq_true.mp h.2 o ho)
    rw [Bool.and_eq_true_iff, decide_eq_true_eq, decide_eq_true_eq] at hk
    exact ⟨k, Nat.lt_succ_of_le hk.1, hk.2.symm⟩
  obtain ⟨o₁, o₂, o₃, o₄, hsplit⟩ : ∃ o₁ o₂ o₃ o₄, a.splitOn '.' = [o₁, o₂, o₃, o₄] :=
    List.length_eq_four.mp h.1
  simp only [hsplit, List.forall_mem_cons, List.not_mem_nil, false_imp_iff, implies_true, and_true]
    at hoctet
  obtain ⟨⟨k₁, h₁, rfl⟩, ⟨k₂, h₂, rfl⟩, ⟨k₃, h₃, rfl⟩, ⟨k₄, h₄, rfl⟩⟩ := hoctet
  have htext := AddressText.v4 h₁ h₂ h₃ h₄
  simp only [List.map_cons, List.map_nil] at htext
  rw [← hsplit, hjoin] at htext
  exact ⟨_, htext⟩

theorem eq_of_cutDouble (h : cutDouble a = some (s, t)) : a = s ++ ':' :: ':' :: t := by
  induction a generalizing s with
  | nil => cases h
  | cons c a ih =>
    rw [cutDouble] at h
    split at h
    · next hc =>
      obtain ⟨rfl, hhead⟩ := hc
      cases h
      rw [List.nil_append, List.cons_head?_tail hhead]
    · obtain ⟨⟨s', t'⟩, hcut, heq⟩ := Option.map_eq_some_iff.mp h
      cases heq
      rw [ih hcut]
      rfl

theorem join_groupsOf (s : List Char) : [':'].intercalate (groupsOf s) = s := by
  unfold groupsOf
  split
  · next hs =>
    rw [hs]
    rfl
  · exact List.intercalate_splitOn ':'

theorem text_of_isIPv6 (h : isIPv6 a = true) : ∃ n, AddressText .v6 a n := by
  unfold isIPv6 at h
  split at h
  · rw [Bool.and_eq_true_iff, decide_eq_true_eq] at h
    have htext := AddressText.v6 (List.all_eq_true.mp h.2) h.1
    rw [join_groupsOf] at htext
    exact ⟨_, htext⟩
  · next head tail hcut =>
    rw [Bool.and_eq_true_iff, decide_eq_true_eq, List.all_eq_true, List.forall_mem_append] at h
    have htext := AddressText.v6Short h.2.1 h.2.2 h.1
    rw [join_groupsOf, join_groupsOf, ← eq_of_cutDouble hcut] at htext
    exact ⟨_, htext⟩

/-- What is written passes the check. -/
theorem isCidr_text {b : DyadicBlock} (h : CidrText t f b) : isCidr t = true := by
  obtain ⟨a, p, rfl, hp, -, haddr⟩ := h
  have hslash : ∀ c ∈ a, decide (c ≠ '/') = true := by
    intro c hc
    refine decide_eq_true fun hslash => ?_
    subst hslash
    cases f with
    | v4 =>
      have hnot := mem_v4 haddr hc
      revert hnot
      decide
    | v6 =>
      have hnot := mem_v6 haddr hc
      revert hnot
      decide
  have htake : (a ++ '/' :: Nat.toDigits 10 p).takeWhile (fun c => decide (c ≠ '/')) = a := by
    rw [List.takeWhile_append_of_pos hslash]
    simp
  have hdrop : (a ++ '/' :: Nat.toDigits 10 p).dropWhile (fun c => decide (c ≠ '/')) = '/' ::
      Nat.toDigits 10 p := by
    rw [List.dropWhile_append_of_pos hslash]
    simp
  have hbits : p ≤ 128 := by
    cases f with
    | v4 => exact Nat.le_trans hp (by decide)
    | v6 => exact hp
  unfold isCidr
  dsimp only
  rw [htake, hdrop]
  dsimp only
  rw [number_toDigits (by omega) (by omega)]
  cases f with
  | v4 =>
    have hne : a ≠ [] := ne_nil_v4 haddr
    have hp : p ≤ 32 := hp
    simp [isIPv4_text haddr, hne, hp]
  | v6 =>
    have hne : a ≠ [] := List.ne_nil_of_mem (colon_mem_v6 haddr)
    have hchars : a.all (fun c => (hexDigit c).isSome || decide (c = ':')) = true := by
      rw [List.all_eq_true]
      intro c hc
      rw [Bool.or_eq_true, decide_eq_true_eq]
      exact mem_v6 haddr hc
    simp [isIPv4_v6 haddr, isIPv6_text haddr, hchars, hne, hbits]

end FloppyGuard.GeoFilter
