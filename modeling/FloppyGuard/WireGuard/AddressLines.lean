import FloppyGuard.Lib.Lines
import FloppyGuard.WireGuard.Metadata

/-! The `Address` lines of a `wg-quick` configuration, and what the patterns of the source find in
them. -/
namespace FloppyGuard.WireGuard

open Text

/-! Configurations. -/

def IsIPv6Text (addr : List Char) : Prop :=
  ':' ∈ addr ∧ ∀ c ∈ addr, c.isAlphanum = true ∨ c = ':' ∨ c = '.'

/-- An entry of an `Address` line, with the blanks around it. -/
structure Entry where
  before : List Char
  addr : List Char
  len : Option ℕ
  behind : List Char
  blank : ∀ c ∈ before ++ behind, isSpace c = true
  valid : (ipToInt addr).isSome = true ∧ (∀ p ∈ len, p ≤ 32) ∨ IsIPv6Text addr

namespace Entry

def suffix (e : Entry) : List Char := e.len.elim [] fun p => '/' :: Nat.toDigits 10 p

def text (e : Entry) : List Char := e.before ++ (e.addr ++ (e.suffix ++ e.behind))

/-- An IPv4 address with its prefix. -/
def cidr (e : Entry) : Option (Ip × ℕ) := (ipToInt e.addr).bind fun ip => e.len.map fun p => (ip, p)

/-- The first dotted address in the entry that has a prefix; of the prefix two digits count. -/
def dotted (e : Entry) : Option (List Char × List Char) :=
  e.len.bind fun p => (e.addr.tails.find? isDotted).map fun q => (q, (Nat.toDigits 10 p).take 2)

end Entry

structure AddressLine where
  indent : List Char
  key : List Char
  gap : List Char
  first : Entry
  rest : List Entry
  comment : List Char
  blank : ∀ c ∈ indent ++ gap, isSpace c = true
  isKey : key.map Char.toLower = "address".toList
  marked : ∀ c ∈ comment.head?, c = '#'

def AddressLine.entries (l : AddressLine) : List Entry := l.first :: l.rest

def entriesText (es : List Entry) : List Char := [','].intercalate (es.map Entry.text)

def AddressLine.text (l : AddressLine) : List Char :=
  l.indent ++ (l.key ++ (l.gap ++ '=' :: (entriesText l.entries ++ l.comment)))

/-- The line has the key `Address`, even if its `=` is missing. -/
def addressKey (line : List Char) : Bool :=
  let s := line.dropWhile isSpace
  (s.take 7).map Char.toLower = "address".toList &&
    ((s.drop 7).dropWhile isSpace).head?.all (· = '=')

inductive ConfLine
  | address (line : AddressLine)
  | other (text : List Char) (h : addressKey text = false)

def ConfLine.text : ConfLine → List Char
  | .address l => l.text
  | .other t _ => t

def ConfLine.address? : ConfLine → Option AddressLine
  | .address l => some l
  | .other _ _ => none

structure Config where
  lines : List ConfLine
  ne : lines ≠ []
  oneLine : ∀ l ∈ lines, OneLine l.text

namespace Config

def texts (c : Config) : List String := c.lines.map fun l => String.ofList l.text

def addressLines (c : Config) : List AddressLine := c.lines.filterMap ConfLine.address?

end Config

variable {s t x v : List Char} {e : Entry} {es : List Entry} {l : AddressLine} {cl : ConfLine}

/-! Dotted addresses. -/

theorem isDotted_eq_false {c : Char} (hc : c ∈ s) (hdigit : c.isDigit = false) (hdot : c ≠ '.') :
    isDotted s = false := by
  rw [isDotted, Bool.and_eq_false_iff]
  right
  rcases mem_splitOn (a := '.') hc with rfl | ⟨part, hpart, hc⟩
  · exact absurd rfl hdot
  refine List.all_eq_false.mpr ⟨part, hpart, ?_⟩
  cases hn : number 3 part with
  | none => simp
  | some n => simp [(digits_of_number hn).2 c hc] at hdigit

theorem isDotted_of_ipToInt (h : (ipToInt s).isSome = true) : isDotted s = true := by
  unfold ipToInt at h
  split at h
  · next a b c d hs =>
    split at h
    · next ha hb hc hd => simp [isDotted, hs, ha, hb, hc, hd]
    · cases h
  · cases h

/-- Nothing of an address goes on here. -/
def Stops (t : List Char) : Prop := ∀ c ∈ t.head?, c = ',' ∨ c = '#' ∨ isSpace c = true

theorem not_digit_of_stop {c : Char} (h : c = ',' ∨ c = '#' ∨ isSpace c = true) :
    c.isDigit = false ∧ c ≠ '.' ∧ c ≠ '/' := by
  rcases h with rfl | rfl | h
  · decide
  · decide
  · refine ⟨?_, ?_, ?_⟩
    · cases hd : c.isDigit with
      | false => rfl
      | true => rw [isSpace_eq_false_of_isDigit hd] at h; cases h
    · rintro rfl
      revert h
      decide
    · rintro rfl
      revert h
      decide

theorem takeWhile_cons_of_ne {c : Char} (h : c ≠ '/') :
    (c :: s).takeWhile (· ≠ '/') = c :: s.takeWhile (· ≠ '/') := by
  simp [h]

/-- What is read of an address and its prefix. -/
theorem leadingCidr_suffix (len : Option ℕ) (hx : '/' ∉ x) (ht : Stops t) :
    leadingCidr (x ++ (len.elim [] (fun p => '/' :: Nat.toDigits 10 p) ++ t)) =
      len.bind fun p => if isDotted x then some (x, (Nat.toDigits 10 p).take 2) else none := by
  have hall : ∀ c ∈ x, decide (c ≠ '/') = true := by
    intro c hc
    refine decide_eq_true ?_
    rintro rfl
    exact hx hc
  cases len with
  | none =>
    rw [Option.elim_none, List.nil_append, Option.bind_none, leadingCidr,
      List.takeWhile_append_of_pos hall,
      List.dropWhile_append_of_pos hall]
    refine if_neg fun h => ?_
    cases t with
    | nil => exact h.2 rfl
    | cons c t =>
      obtain ⟨hdigit, hdot, hslash⟩ := not_digit_of_stop (ht c rfl)
      have hmem : c ∈ x ++ (c :: t).takeWhile (· ≠ '/') := by
        rw [takeWhile_cons_of_ne hslash]
        exact List.mem_append_right _ List.mem_cons_self
      rw [isDotted_eq_false hmem hdigit hdot] at h
      cases h.1
  | some p =>
    have hdigits : ((Nat.toDigits 10 p) ++ t).takeWhile Char.isDigit = Nat.toDigits 10 p :=
      takeWhile_toDigits fun c hc => (not_digit_of_stop (ht c hc)).1
    have hne : (Nat.toDigits 10 p).take 2 ≠ [] := by simp
    rw [Option.elim_some, Option.bind_some, leadingCidr, List.cons_append,
      List.takeWhile_append_of_pos hall,
      List.dropWhile_append_of_pos hall, List.takeWhile_cons_of_neg (by decide),
        List.dropWhile_cons_of_neg (by decide),
      List.append_nil, List.tail_cons, hdigits]
    simp [hne]

/-! The search for a network anywhere in a line. -/

/-- `/(\d{1,3}(?:\.\d{1,3}){3}\/\d{1,2})/` -/
def findNetwork (line : List Char) : Option (List Char × List Char) :=
  line.tails.findSome? leadingCidr

theorem findNetwork_cons (c : Char) (s : List Char) :
    findNetwork (c :: s) = (leadingCidr (c :: s)).or (findNetwork s) := by
  rw [findNetwork, List.tails_cons, List.findSome?_cons]
  cases leadingCidr (c :: s) <;> rfl

/-- A network starts with a digit. -/
theorem leadingCidr_of_not_digit {c : Char} (hc : c.isDigit = false) :
    leadingCidr (c :: s) = none := by
  refine if_neg fun h => ?_
  by_cases hslash : c = '/'
  · subst hslash
    rw [List.takeWhile_cons_of_neg (by decide)] at h
    exact absurd h.1 (by decide)
  · rw [takeWhile_cons_of_ne hslash] at h
    by_cases hdot : c = '.'
    · subst hdot
      rw [isDotted, Bool.and_eq_true_iff, List.all_eq_true] at h
      have hsplit : ∀ u : List Char, ('.' :: u).splitOn '.' = [] :: u.splitOn '.' := fun u =>
        List.splitOn_append_cons_self_of_not_mem List.not_mem_nil u
      rw [hsplit] at h
      exact absurd (h.1.2 [] List.mem_cons_self) (by decide)
    · rw [isDotted_eq_false List.mem_cons_self hc hdot] at h
      cases h.1

theorem findNetwork_skip (h : ∀ c ∈ x, c.isDigit = false) :
    findNetwork (x ++ s) = findNetwork s := by
  induction x with
  | nil => rfl
  | cons c x ih =>
    rw [List.forall_mem_cons] at h
    rw [List.cons_append, findNetwork_cons, leadingCidr_of_not_digit h.1, ih h.2]
    rfl

theorem findNetwork_digits (h : ∀ c ∈ x, c.isDigit = true) (ht : Stops t) :
    findNetwork (x ++ t) = findNetwork t := by
  induction x with
  | nil => rfl
  | cons c x ih =>
    have hplain : ∀ d : Char, d.isDigit = false → d ∉ c :: x := by
      intro d hd hmem
      simp [h d hmem] at hd
    have hnone := leadingCidr_suffix none (hplain '/' (by decide)) ht
    rw [List.forall_mem_cons] at h
    rw [List.cons_append, findNetwork_cons, ih h.2]
    rw [Option.elim_none, List.nil_append, List.cons_append] at hnone
    rw [hnone]
    rfl

/-- The search in one entry. -/
theorem findNetwork_suffix {len : Option ℕ} (hx : '/' ∉ x) (ht : Stops t) :
    findNetwork (x ++ (len.elim [] (fun p => '/' :: Nat.toDigits 10 p) ++ t)) =
      (len.bind fun p => (x.tails.find? isDotted).map fun q => (q, (Nat.toDigits 10 p).take 2)).or
      (findNetwork t) := by
  induction x with
  | nil =>
    have hskip : findNetwork (len.elim [] (fun p => '/' :: Nat.toDigits 10 p) ++ t) =
        findNetwork t := by
      cases len with
      | none => rfl
      | some p =>
        rw [Option.elim_some, List.cons_append]
        exact (findNetwork_skip (x := ['/']) (by decide)).trans
          (findNetwork_digits (fun c hc => mem_toDigits_isDigit hc) ht)
    rw [List.nil_append, hskip]
    cases len <;> rfl
  | cons c x ih =>
    have hlead := leadingCidr_suffix len hx ht
    rw [List.cons_append] at hlead
    rw [List.cons_append, findNetwork_cons, hlead, ih fun h => hx (List.mem_cons_of_mem _ h),
      List.tails_cons, List.find?_cons]
    cases len with
    | none => rfl
    | some p =>
      cases hd : isDotted (c :: x) with
      | false => simp
      | true => simp

namespace Entry

theorem slash_notMem (e : Entry) : '/' ∉ e.addr := by
  intro hc
  rcases e.valid with ⟨h, -⟩ | h
  · obtain ⟨ip, hip⟩ := Option.isSome_iff_exists.mp h
    rcases mem_of_ipToInt hip hc with hc | hc <;> exact absurd hc (by decide)
  · rcases h.2 '/' hc with hc | hc | hc <;> exact absurd hc (by decide)

theorem before_blank (e : Entry) : ∀ c ∈ e.before, isSpace c = true :=
  fun c hc => e.blank c (List.mem_append_left _ hc)

theorem behind_blank (e : Entry) : ∀ c ∈ e.behind, isSpace c = true :=
  fun c hc => e.blank c (List.mem_append_right _ hc)

end Entry

theorem not_digit_of_blank (h : ∀ c ∈ s, isSpace c = true) : ∀ c ∈ s, c.isDigit = false :=
  fun c hc => (not_digit_of_stop (.inr (.inr (h c hc)))).1

theorem stops_append (h : ∀ c ∈ s, isSpace c = true) (ht : Stops t) : Stops (s ++ t) := by
  cases s with
  | nil => exact ht
  | cons c s =>
    intro d hd
    obtain rfl : c = d := Option.some.inj hd
    exact .inr (.inr (h c List.mem_cons_self))

theorem findNetwork_entry (e : Entry) (ht : Stops t) :
    findNetwork (e.text ++ t) = e.dotted.or (findNetwork t) := by
  have htext : e.text ++ t = e.before ++ (e.addr ++ (e.suffix ++ (e.behind ++ t))) := by
    simp only [Entry.text, List.append_assoc]
  rw [htext, findNetwork_skip (not_digit_of_blank e.before_blank), Entry.suffix,
    findNetwork_suffix e.slash_notMem (stops_append e.behind_blank ht),
      findNetwork_skip (not_digit_of_blank e.behind_blank)]
  rfl

theorem findNetwork_entries (hne : es ≠ []) (ht : Stops t) :
    findNetwork (entriesText es ++ t) = (es.findSome? Entry.dotted).or (findNetwork t) := by
  induction es with
  | nil => exact absurd rfl hne
  | cons e es ih =>
    have hor : (e :: es).findSome? Entry.dotted = e.dotted.or (es.findSome? Entry.dotted) := by
      rw [List.findSome?_cons]
      cases e.dotted <;> rfl
    cases es with
    | nil =>
      have htext : entriesText [e] = e.text := by
        rw [entriesText, List.map_singleton, List.intercalate_singleton]
      rw [hor, List.findSome?_nil, Option.or_none, htext]
      exact findNetwork_entry e ht
    | cons e' es =>
      have htext : entriesText (e :: e' :: es) ++ t = e.text ++
          ([','] ++ (entriesText (e' :: es) ++ t)) := by
        rw [entriesText, List.map_cons, List.map_cons, List.intercalate_cons_cons]
        simp only [List.append_assoc]
        rfl
      have hcomma : Stops ([','] ++ (entriesText (e' :: es) ++ t)) := by
        intro c hc
        obtain rfl : ',' = c := Option.some.inj hc
        exact .inl rfl
      rw [htext, findNetwork_entry e hcomma, findNetwork_skip (by decide),
        ih (List.cons_ne_nil _ _), hor, Option.or_assoc]

/-! The value of an `Address` line. -/

theorem addressValue_blank (h : ∀ c ∈ x, isSpace c = true) :
    addressValue (x ++ t) = addressValue t := by
  rw [addressValue, addressValue, List.dropWhile_append_of_pos h]

theorem Entry.addr_ne (e : Entry) : e.addr ≠ [] := by
  rcases e.valid with ⟨h, -⟩ | h
  · intro hnil
    rw [hnil] at h
    cases h
  · exact List.ne_nil_of_mem h.1

theorem Entry.addr_plain (e : Entry) : ∀ c ∈ e.addr, isSpace c = false := by
  intro c hc
  rcases e.valid with ⟨h, -⟩ | h
  · obtain ⟨ip, hip⟩ := Option.isSome_iff_exists.mp h
    rcases mem_of_ipToInt hip hc with rfl | hc
    · decide
    · exact isSpace_eq_false_of_isDigit hc
  · rcases h.2 c hc with hc | rfl | rfl
    · exact isSpace_eq_false_of_isAlphanum hc
    · decide
    · decide

theorem stops_of_head {c : Char} (hc : c = ',' ∨ c = '#' ∨ isSpace c = true) (t : List Char) :
    Stops (c :: t) := by
  intro d hd
  obtain rfl : c = d := Option.some.inj hd
  exact hc

theorem AddressLine.stops_comment (l : AddressLine) (ht : Stops t) : Stops (l.comment ++ t) := by
  cases hc : l.comment with
  | nil => exact ht
  | cons c u => exact stops_of_head (.inr (.inl (l.marked c (by rw [hc]; rfl)))) _

/-- The value starts with the first entry. -/
theorem addressValue_line (l : AddressLine) (ht : Stops t) :
    ∃ u, Stops u ∧ addressValue (l.text ++ t) = some (l.first.addr ++ (l.first.suffix ++ u)) := by
  have hlen : l.key.length = 7 := by simpa using congrArg List.length l.isKey
  have hkey : ∀ c ∈ (l.key ++ (l.gap ++ '=' :: (entriesText l.entries ++ (l.comment ++ t)))).head?,
      isSpace c = false := by
    have hlow : ∀ c ∈ l.key, isSpace c = false := by
      intro c hc
      have hmem : c.toLower ∈ "address".toList := l.isKey ▸ List.mem_map_of_mem hc
      cases hs : isSpace c with
      | false => rfl
      | true =>
        rw [toLower_of_isSpace hs] at hmem
        have hletters : ∀ d ∈ "address".toList, isSpace d = false := by decide
        exact hs.symm.trans (hletters c hmem)
    intro c hc
    obtain ⟨d, k, hk⟩ := List.exists_cons_of_length_pos (l := l.key) (by omega)
    rw [hk] at hc
    obtain rfl : d = c := Option.some.inj hc
    exact hlow d (by rw [hk]; exact List.mem_cons_self)
  obtain ⟨u, hu, hentries⟩ : ∃ u, Stops u ∧ entriesText l.entries ++ (l.comment ++ t) =
      l.first.before ++ (l.first.addr ++ (l.first.suffix ++ u)) := by
    unfold AddressLine.entries
    cases l.rest with
    | nil =>
      refine ⟨l.first.behind ++ (l.comment ++ t),
        stops_append l.first.behind_blank (l.stops_comment ht), ?_⟩
      rw [entriesText, List.map_singleton, List.intercalate_singleton]
      simp only [Entry.text, List.append_assoc]
    | cons e es =>
      refine ⟨l.first.behind ++ ([','] ++ (entriesText (e :: es) ++ (l.comment ++ t))),
        stops_append l.first.behind_blank (stops_of_head (.inl rfl) _), ?_⟩
      rw [entriesText, List.map_cons, List.map_cons, List.intercalate_cons_cons, entriesText,
        List.map_cons]
      simp only [Entry.text, List.append_assoc]
  refine ⟨u, hu, ?_⟩
  have htext : l.text ++ t = l.indent ++
      (l.key ++ (l.gap ++ '=' :: (entriesText l.entries ++ (l.comment ++ t)))) := by
    simp only [AddressLine.text, List.append_assoc, List.cons_append]
  have hgap : ∀ c ∈ l.gap, isSpace c = true := fun c hc => l.blank c (List.mem_append_right _ hc)
  have hfirst : ∀ c ∈ (l.first.addr ++ (l.first.suffix ++ u)).head?, isSpace c = false := by
    obtain ⟨d, k, hk⟩ := List.exists_cons_of_ne_nil l.first.addr_ne
    intro c hc
    rw [hk] at hc
    obtain rfl : d = c := Option.some.inj hc
    exact l.first.addr_plain d (by rw [hk]; exact List.mem_cons_self)
  have hequals :
    (l.gap ++ '=' :: (l.first.before ++ (l.first.addr ++ (l.first.suffix ++ u)))).dropWhile
      isSpace =
      '=' :: (l.first.before ++ (l.first.addr ++ (l.first.suffix ++ u))) := by
    rw [List.dropWhile_append_of_pos hgap, List.dropWhile_cons_of_neg (by decide)]
  rw [htext, addressValue_blank fun c hc => l.blank c (List.mem_append_left _ hc), addressValue,
    dropWhile_eq_self hkey]
  rw [List.take_left' hlen, List.drop_left' hlen, if_pos l.isKey, hentries, hequals]
  have hvalue : (l.first.before ++ (l.first.addr ++ (l.first.suffix ++ u))).dropWhile isSpace =
      l.first.addr ++ (l.first.suffix ++ u) := by
    rw [List.dropWhile_append_of_pos l.first.before_blank, dropWhile_eq_self hfirst]
  exact congrArg some hvalue

/-- Another line has no value, whatever follows it. -/
theorem addressValue_other (h : addressKey x = false) (hx : ∃ c ∈ x, isSpace c = false)
    (ht : t = [] ∨ ∃ u, t = '\n' :: u) :
    addressValue (x ++ t) = none := by
  have hne : x.dropWhile isSpace ≠ [] := by
    obtain ⟨c, hc, hplain⟩ := hx
    intro hnil
    exact absurd (List.dropWhile_eq_nil_iff.mp hnil c hc) (by simp [hplain])
  have happend : (x ++ t).dropWhile isSpace = x.dropWhile isSpace ++ t := by
    rw [List.dropWhile_append, if_neg (by simpa using hne)]
  unfold addressKey at h
  rw [addressValue, happend]
  dsimp only at h ⊢
  generalize x.dropWhile isSpace = s at h ⊢
  by_cases hlen : 7 ≤ s.length
  · rw [List.take_append_of_le_length hlen, List.drop_append_of_le_length hlen]
    split
    · next hkey =>
      rw [decide_eq_true hkey, Bool.true_and] at h
      cases hd : (s.drop 7).dropWhile isSpace with
      | nil => rw [hd] at h; cases h
      | cons c r =>
        rw [hd] at h
        have hc : c ≠ '=' := by simpa using h
        rw [List.dropWhile_append, hd]
        simp [hc]
    · rfl
  · refine if_neg fun hkey => ?_
    rw [List.take_append, List.take_of_length_le (by omega)] at hkey
    rcases ht with rfl | ⟨u, rfl⟩
    · have hseven := congrArg List.length hkey
      simp at hseven
      omega
    · obtain ⟨n, hn⟩ : ∃ n, 7 - s.length = n + 1 := ⟨6 - s.length, by omega⟩
      rw [hn, List.take_succ_cons] at hkey
      have hmem : '\n' ∈ "address".toList := by
        rw [← hkey, List.map_append]
        exact List.mem_append_right _ List.mem_cons_self
      exact absurd hmem (by decide)

theorem addressValue_alone (h : addressKey x = false) : addressValue x = none := by
  by_cases hall : ∀ c ∈ x, isSpace c = true
  · have hnil := addressValue_blank (t := []) hall
    rwa [List.append_nil] at hnil
  · have hvisible : ∃ c ∈ x, isSpace c = false := by simpa using hall
    have hread := addressValue_other h hvisible (.inl rfl)
    rwa [List.append_nil] at hread

/-! The lines of a configuration. -/

def Config.text (c : Config) : List Char := ['\n'].intercalate (c.lines.map ConfLine.text)

variable {β : Type*} {f : List Char → Option β} {g : Entry → Option β}

/-- An expression that is anchored at `Address =` reads the first entry of each `Address` line, up
to the first hit. -/
theorem findSome?_config (hf : ∀ e : Entry, ∀ u, Stops u → f (e.addr ++ (e.suffix ++ u)) = g e)
    (c : Config) :
    (lineStarts c.text).findSome?
    (fun s => (addressValue s).bind f) = c.addressLines.findSome? fun l => g l.first := by
  have hblank : ∀ b t : List Char, (∀ c ∈ b, isSpace c = true) →
      (addressValue (b ++ t)).bind f = (addressValue t).bind f :=
    fun b t hb => by rw [addressValue_blank hb]
  have hline : ∀ (l : AddressLine) t, Stops t →
      (addressValue (l.text ++ t)).bind f = g l.first := by
    intro l t ht
    obtain ⟨u, hu, hvalue⟩ := addressValue_line l ht
    rw [hvalue]
    exact hf l.first u hu
  have hnl : ∀ s : List Char, Stops ('\n' :: s) :=
    fun s => stops_of_head (.inr (.inr (by decide))) s
  obtain ⟨lines, hne, hone⟩ := c
  rw [Config.text, Config.addressLines]
  dsimp only
  clear * - hblank hline hnl hne hone
  induction lines with
  | nil => exact absurd rfl hne
  | cons cl lines ih =>
    rw [List.forall_mem_cons] at hone
    cases lines with
    | nil =>
      rw [List.map_singleton, List.intercalate_singleton,
        findSome?_lineStarts_last hblank rfl hone.1]
      cases cl with
      | address l =>
        have hread := hline l [] nofun
        rw [List.append_nil] at hread
        simpa [ConfLine.text, ConfLine.address?] using hread
      | other x hx =>
        rw [ConfLine.text, addressValue_alone hx]
        rfl
    | cons cl' lines =>
      have htext : ['\n'].intercalate ((cl :: cl' :: lines).map ConfLine.text) =
          cl.text ++ '\n' :: ['\n'].intercalate ((cl' :: lines).map ConfLine.text) := by
        rw [List.map_cons, List.map_cons, List.intercalate_cons_cons, List.append_assoc]
        rfl
      have hrest := ih (List.cons_ne_nil _ _) hone.2
      rw [htext, findSome?_lineStarts hblank hone.1, List.filterMap_cons]
      cases cl with
      | address l =>
        have hread := hline l _ (hnl (['\n'].intercalate ((cl' :: lines).map ConfLine.text)))
        rw [ConfLine.text, hread, hrest]
        dsimp only [ConfLine.address?]
        rw [List.findSome?_cons]
        cases g l.first <;> rfl
      | other x hx =>
        rw [ConfLine.text]
        dsimp only [ConfLine.address?]
        rw [← hrest]
        by_cases hall : ∀ c ∈ x, isSpace c = true
        · have hnext : ∀ s : List Char, (addressValue (x ++ '\n' :: s)).bind f =
              (addressValue s).bind f := by
            intro s
            rw [addressValue_blank hall]
            exact hblank ['\n'] s (by decide)
          rw [hnext]
          rw [lineStarts, List.findSome?_cons]
          cases (addressValue (['\n'].intercalate ((cl' :: lines).map ConfLine.text))).bind f <;>
            rfl
        · have hvisible : ∃ c ∈ x, isSpace c = false := by simpa using hall
          rw [addressValue_other hx hvisible (.inr ⟨_, rfl⟩)]
          rfl

/-- The first `Address` line is the first line that has a value. -/
theorem find?_config (c : Config) :
    c.texts.find? (fun l => (addressValue l.toList).isSome) = c.addressLines.head?.map fun l =>
      String.ofList l.text := by
  obtain ⟨lines, hne, hone⟩ := c
  rw [Config.texts, Config.addressLines]
  dsimp only
  clear hne hone
  induction lines with
  | nil => rfl
  | cons cl lines ih =>
    rw [List.map_cons, List.find?_cons, String.toList_ofList]
    cases cl with
    | address l =>
      obtain ⟨u, -, hvalue⟩ := addressValue_line l (t := []) nofun
      rw [List.append_nil] at hvalue
      rw [ConfLine.text, hvalue]
      rfl
    | other x hx =>
      rw [ConfLine.text, addressValue_alone hx]
      exact ih

/-- A network anywhere in an `Address` line. -/
theorem findNetwork_line (l : AddressLine) :
    findNetwork l.text = (l.entries.findSome? Entry.dotted).or (findNetwork l.comment) := by
  have hkey : ∀ c ∈ l.key, c.isDigit = false := by
    intro c hc
    have hmem : c.toLower ∈ "address".toList := l.isKey ▸ List.mem_map_of_mem hc
    cases hd : c.isDigit with
    | false => rfl
    | true =>
      rw [toLower_of_isDigit hd] at hmem
      have hletters : ∀ d ∈ "address".toList, d.isDigit = false := by decide
      exact hd.symm.trans (hletters c hmem)
  have hcomment : Stops l.comment := by
    have hstops := l.stops_comment (t := []) nofun
    rwa [List.append_nil] at hstops
  rw [AddressLine.text,
    findNetwork_skip (not_digit_of_blank fun c hc => l.blank c (List.mem_append_left _ hc)),
    findNetwork_skip hkey,
      findNetwork_skip (not_digit_of_blank fun c hc => l.blank c (List.mem_append_right _ hc)),
    findNetwork_cons, leadingCidr_of_not_digit (by decide), Option.none_or]
  exact findNetwork_entries (List.cons_ne_nil _ _) hcomment

end FloppyGuard.WireGuard
