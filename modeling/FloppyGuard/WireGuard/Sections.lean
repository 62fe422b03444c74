import FloppyGuard.WireGuard.Metadata

/-! The sections of a wg-quick conf, and the lines inside its peers. -/
namespace FloppyGuard.WireGuard

open Text

variable {xs ys body : List String} {l : String} {b : Bool}

def startsWith (key : String) (t : List Char) : Bool := key.toList.isPrefixOf t

/-- `slice(indexOf("=") + 1)`: the whole text when there is no `=`. -/
def afterEq (t : List Char) : List Char := if '=' ∈ t then (t.dropWhile (· ≠ '=')).tail else t

def isHeader (l : String) : Bool := startsWith "[" (trim l.toList)

def isPeerHeader (l : String) : Bool := trim l.toList = "[Peer]".toList

/-- A header line and the lines up to the next; what precedes the first header has none. -/
structure Section where
  header : Option String
  body : List String
  headed : ∀ h ∈ header, isHeader h = true
  plain : ∀ l ∈ body, isHeader l = false

namespace Section

def lines (sec : Section) : List String := sec.header.toList ++ sec.body

def isPeer (sec : Section) : Bool := sec.header.any isPeerHeader

def preamble : Section := ⟨none, [], nofun, nofun⟩

end Section

def sectionStep (s : List Section × Section) (rawLine : String) : List Section × Section :=
  if h : isHeader rawLine = true then
    (s.1 ++ [s.2], ⟨some rawLine, [], fun _ hl => Option.mem_some.mp hl ▸ h, nofun⟩)
  else
    (s.1, { s.2 with
      body := s.2.body ++ [rawLine]
      plain := fun l hl => (List.mem_append.mp hl).elim (s.2.plain l) fun hl => by
        rw [List.mem_singleton.mp hl]
        exact Bool.eq_false_iff.mpr h })

def sectionScan (lines : List String) : List Section × Section :=
  lines.foldl sectionStep ([], .preamble)

def sections (lines : List String) : List Section :=
  (sectionScan lines).1 ++ [(sectionScan lines).2]

/-! The lines inside `[Peer]` sections. -/

def peerLinesFrom : Bool → List String → List String
  | _, [] => []
  | b, l :: ls =>
    if isHeader l then peerLinesFrom (isPeerHeader l) ls
    else if b then l :: peerLinesFrom b ls else peerLinesFrom b ls

def peerLines (lines : List String) : List String := peerLinesFrom false lines

/-- Whether the end of the lines is inside a peer. -/
def inPeerAfter (b : Bool) (lines : List String) : Bool :=
  lines.foldl (fun b l => if isHeader l then isPeerHeader l else b) b

theorem peerLinesFrom_append (b : Bool) (xs ys : List String) :
    peerLinesFrom b (xs ++ ys) = peerLinesFrom b xs ++ peerLinesFrom (inPeerAfter b xs) ys := by
  induction xs generalizing b with
  | nil => rfl
  | cons l xs ih =>
    rw [List.cons_append, peerLinesFrom, peerLinesFrom, inPeerAfter, List.foldl_cons]
    split
    · exact ih _
    · split
      · rw [ih, List.cons_append]
        rfl
      · exact ih _

theorem peerLinesFrom_plain (h : ∀ l ∈ xs, isHeader l = false) :
    peerLinesFrom b xs = if b then xs else [] := by
  induction xs with
  | nil => simp [peerLinesFrom]
  | cons l xs ih =>
    rw [peerLinesFrom, if_neg (by simp [h l List.mem_cons_self]), ih fun l hl =>
      h l (List.mem_cons_of_mem _ hl)]
    split <;> rfl

theorem inPeerAfter_plain (h : ∀ l ∈ xs, isHeader l = false) : inPeerAfter b xs = b := by
  induction xs with
  | nil => rfl
  | cons l xs ih =>
    rw [inPeerAfter, List.foldl_cons, if_neg (by simp [h l List.mem_cons_self])]
    exact ih fun l hl => h l (List.mem_cons_of_mem _ hl)

/-- Behind a header it does not matter what came before. -/
theorem peerLinesFrom_header (h : isHeader l = true) :
    peerLinesFrom b (l :: xs) = peerLinesFrom (isPeerHeader l) xs := by
  rw [peerLinesFrom, if_pos h]

/-- The lines of a peer section; none of any other. -/
def Section.peerBody (sec : Section) : List String := if sec.isPeer then sec.body else []

theorem peerLinesFrom_section {sec : Section} (h : sec.header.isSome = true ∨ b = false) :
    peerLinesFrom b (sec.lines ++ ys) = sec.peerBody ++ peerLinesFrom sec.isPeer ys := by
  obtain ⟨header, body, headed, plain⟩ := sec
  cases header with
  | none =>
    obtain rfl : b = false := h.resolve_left nofun
    rw [Section.lines, Option.toList_none, List.nil_append, peerLinesFrom_append,
      peerLinesFrom_plain plain,
      inPeerAfter_plain plain]
    rfl
  | some head =>
    have hhead := headed head rfl
    rw [Section.lines, Option.toList_some, List.singleton_append, List.cons_append,
      peerLinesFrom_header hhead,
      peerLinesFrom_append, peerLinesFrom_plain plain, inPeerAfter_plain plain]
    rfl

/-! A conf is made of its sections. -/

theorem sectionScan_concat : sectionScan (xs ++ [l]) = sectionStep (sectionScan xs) l := by
  rw [sectionScan, List.foldl_append]
  rfl

theorem flatMap_sections (lines : List String) :
    (sections lines).flatMap Section.lines = lines := by
  have hscan : (sectionScan lines).1.flatMap Section.lines ++ (sectionScan lines).2.lines =
      lines := by
    induction lines using List.reverseRecOn with
    | nil => rfl
    | append_singleton xs l ih =>
      rw [sectionScan_concat, sectionStep]
      conv_rhs => rw [← ih]
      split
      · simp [Section.lines]
      · simp [Section.lines]
  simpa [sections] using hscan

theorem sections_cons (lines : List String) :
    ∃ first rest, sections lines = first :: rest ∧ first.header = none ∧ ∀ sec ∈ rest,
    sec.header.isSome = true := by
  have hscan : ((sectionScan lines).1 = [] ∧ (sectionScan lines).2.header = none) ∨
      ∃ first rest, (sectionScan lines).1 = first :: rest ∧ first.header = none ∧
        (∀ sec ∈ rest, sec.header.isSome = true) ∧ (sectionScan lines).2.header.isSome = true := by
    induction lines using List.reverseRecOn with
    | nil => exact .inl ⟨rfl, rfl⟩
    | append_singleton xs l ih =>
      rw [sectionScan_concat, sectionStep]
      split
      · rcases ih with ⟨h, hnone⟩ | ⟨first, rest, h, hfirst, hrest, hlast⟩
        · exact .inr ⟨(sectionScan xs).2, [], by rw [h]; rfl, hnone, nofun, rfl⟩
        · refine .inr ⟨first, rest ++ [(sectionScan xs).2],
            by rw [h]; rfl, hfirst, fun sec hsec => ?_, rfl⟩
          rcases List.mem_append.mp hsec with hsec | hsec
          · exact hrest sec hsec
          · exact List.mem_singleton.mp hsec ▸ hlast
      · exact ih
  rw [sections]
  rcases hscan with ⟨h, hnone⟩ | ⟨first, rest, h, hfirst, hrest, hlast⟩
  · exact ⟨(sectionScan lines).2, [], by rw [h]; rfl, hnone, nofun⟩
  · refine ⟨first, rest ++ [(sectionScan lines).2], by rw [h]; rfl, hfirst, fun sec hsec => ?_⟩
    rcases List.mem_append.mp hsec with hsec | hsec
    · exact hrest sec hsec
    · exact List.mem_singleton.mp hsec ▸ hlast

/-- Every section but the first starts with a header. -/
theorem sections_headed (lines : List String) :
    ∃ first rest, sections lines = first :: rest ∧ ∀ sec ∈ rest, sec.header.isSome = true := by
  obtain ⟨first, rest, heq, -, hrest⟩ := sections_cons lines
  exact ⟨first, rest, heq, hrest⟩

theorem peerLinesFrom_flatMap {secs : List Section} (h : ∀ sec ∈ secs, sec.header.isSome = true) :
    peerLinesFrom b (secs.flatMap Section.lines) = secs.flatMap Section.peerBody := by
  induction secs generalizing b with
  | nil => rfl
  | cons sec secs ih =>
    rw [List.flatMap_cons, peerLinesFrom_section (.inl (h sec List.mem_cons_self)),
      List.flatMap_cons,
      ih fun sec hsec => h sec (List.mem_cons_of_mem _ hsec)]

theorem peerLines_eq (conf : List String) :
    peerLines conf = (sections conf).flatMap Section.peerBody := by
  obtain ⟨first, rest, heq, hrest⟩ := sections_headed conf
  have hconf : conf = first.lines ++ rest.flatMap Section.lines := by
    rw [← List.flatMap_cons, ← heq, flatMap_sections]
  calc peerLines conf = peerLinesFrom false (first.lines ++ rest.flatMap Section.lines) :=
    congrArg _ hconf
    _ = first.peerBody ++ rest.flatMap Section.peerBody := by
      rw [peerLinesFrom_section (.inr rfl), peerLinesFrom_flatMap hrest]
    _ = (sections conf).flatMap Section.peerBody := by rw [heq, List.flatMap_cons]

/-- A block at the end of a conf: its header decides whether its lines are a peer's. -/
theorem peerLines_block (h : isHeader l = true) (hbody : ∀ m ∈ body, isHeader m = false) :
    peerLines (xs ++ l :: body) = peerLines xs ++ if isPeerHeader l then body else [] := by
  rw [peerLines, peerLinesFrom_append, peerLinesFrom_header h, peerLinesFrom_plain hbody]
  rfl

/-! The sections of a text that is written section by section. -/

namespace Section

theorem eq_of {a b : Section} (hheader : a.header = b.header) (hbody : a.body = b.body) :
    a = b := by
  cases a
  cases b
  subst hheader
  subst hbody
  rfl

/-- A section with more lines at its end. -/
def add (sec : Section) (xs : List String) (h : ∀ l ∈ xs, isHeader l = false) : Section where
  header := sec.header
  body := sec.body ++ xs
  headed := sec.headed
  plain l hl := (List.mem_append.mp hl).elim (sec.plain l) (h l)

end Section

theorem foldl_sectionStep_plain {s : List Section × Section} (h : ∀ l ∈ xs, isHeader l = false) :
    xs.foldl sectionStep s = (s.1, s.2.add xs h) := by
  induction xs generalizing s with
  | nil => exact Prod.ext rfl (Section.eq_of rfl (List.append_nil _).symm)
  | cons l xs ih =>
    have hl := h l List.mem_cons_self
    rw [List.foldl_cons, sectionStep, dif_neg (by simp [hl]), ih fun m hm =>
      h m (List.mem_cons_of_mem _ hm)]
    exact Prod.ext rfl (Section.eq_of rfl (by simp [Section.add]))

theorem foldl_sectionStep_section {s : List Section × Section} {sec : Section}
    (h : sec.header.isSome = true) :
    sec.lines.foldl sectionStep s = (s.1 ++ [s.2], sec) := by
  obtain ⟨head, hhead⟩ := Option.isSome_iff_exists.mp h
  rw [Section.lines, hhead, Option.toList_some, List.singleton_append, List.foldl_cons, sectionStep,
    dif_pos (sec.headed head hhead), foldl_sectionStep_plain sec.plain]
  exact Prod.ext rfl (Section.eq_of hhead.symm rfl)

theorem foldl_sectionStep_flatMap {s : List Section × Section} {secs : List Section}
    (h : ∀ sec ∈ secs, sec.header.isSome = true) :
    let t := (secs.flatMap Section.lines).foldl sectionStep s
    t.1 ++ [t.2] = s.1 ++ s.2 :: secs := by
  induction secs generalizing s with
  | nil => rfl
  | cons sec secs ih =>
    rw [List.flatMap_cons, List.foldl_append, foldl_sectionStep_section (h sec List.mem_cons_self)]
    have htail := ih (s := (s.1 ++ [s.2], sec)) fun sec hsec => h sec (List.mem_cons_of_mem _ hsec)
    simpa using htail

/-- A text written section by section is read so again. -/
theorem sections_flatMap {first : Section} {rest : List Section} (hfirst : first.header = none)
    (hrest : ∀ sec ∈ rest, sec.header.isSome = true) :
    sections ((first :: rest).flatMap Section.lines) = first :: rest := by
  have hscan : first.lines.foldl sectionStep ([], .preamble) = ([], first) := by
    rw [Section.lines, hfirst, Option.toList_none, List.nil_append,
      foldl_sectionStep_plain first.plain]
    exact Prod.ext rfl (Section.eq_of hfirst.symm rfl)
  rw [sections, sectionScan, List.flatMap_cons, List.foldl_append, hscan]
  exact foldl_sectionStep_flatMap hrest

/-- A scan of the lines whose result is known section by section. -/
theorem foldl_by_section {σ β : Type*} {f : σ → String → σ} {flush : σ → β} {g : β → Section → β}
    {init : σ}
    (h : ∀ s sec, sec.header.isSome = true ∨ s = init →
      flush (sec.lines.foldl f s) = g (flush s) sec)
    (conf : List String) : flush (conf.foldl f init) = (sections conf).foldl g (flush init) := by
  have hsecs : ∀ (secs : List Section) (s : σ), (∀ sec ∈ secs, sec.header.isSome = true) →
      flush ((secs.flatMap Section.lines).foldl f s) = secs.foldl g (flush s) := by
    intro secs
    induction secs with
    | nil => exact fun _ _ => rfl
    | cons sec secs ih =>
      intro s hsecs
      rw [List.flatMap_cons, List.foldl_append, ih _ fun sec hsec =>
        hsecs sec (List.mem_cons_of_mem _ hsec),
        h s sec (.inl (hsecs sec List.mem_cons_self)), List.foldl_cons]
  obtain ⟨first, rest, heq, hrest⟩ := sections_headed conf
  have hconf : conf = first.lines ++ rest.flatMap Section.lines := by
    rw [← List.flatMap_cons, ← heq, flatMap_sections]
  rw [heq, List.foldl_cons]
  conv_lhs => rw [hconf]
  rw [List.foldl_append, hsecs rest _ hrest, h init first (.inr rfl)]

/-- A scan that keeps track of the peers keeps what each of its steps keeps, a line inside a peer
being one that `Q` holds of. -/
theorem foldl_peerLines {σ : Type} {f : σ → String → σ} (inPeer : σ → Bool) {I : σ → Prop}
    {Q : String → Prop}
    (hstep : ∀ s l, I s → (inPeer s = true → isHeader l = false → Q l) →
      I (f s l) ∧ inPeer (f s l) = if isHeader l then isPeerHeader l else inPeer s)
    {s : σ} (hs : I s) (h : ∀ l ∈ peerLinesFrom (inPeer s) xs, Q l) : I (xs.foldl f s) := by
  induction xs generalizing s with
  | nil => exact hs
  | cons l xs ih =>
    rw [peerLinesFrom] at h
    obtain ⟨hline, hin⟩ := hstep s l hs fun hin hhead => by
      rw [hhead, if_neg Bool.false_ne_true, if_pos hin] at h
      exact h l List.mem_cons_self
    refine ih hline fun m hm => ?_
    rw [hin] at hm
    split at h
    · next hhead =>
      rw [if_pos hhead] at hm
      exact h m hm
    · next hhead =>
      rw [if_neg hhead] at hm
      split at h
      · exact h m (List.mem_cons_of_mem _ hm)
      · exact h m hm

end FloppyGuard.WireGuard
