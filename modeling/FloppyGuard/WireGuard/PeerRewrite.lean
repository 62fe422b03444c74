import FloppyGuard.WireGuard.Sections
import Mathlib.Data.List.DropRight

/-! Two rewrites of one peer of a conf: its key swapped (`_rewriteRotatedPeer`), and the peer
removed (`_removePeerFromConf`). -/
namespace FloppyGuard.WireGuard

open Text

variable {conf xs : List String} {sec : Section} {l old new target T : String}

/-- `toLowerCase` as far as it leads to ASCII: the Kelvin sign is a `K`. -/
def lowerCase (c : Char) : Char := if c.toNat = 0x212a then 'k' else c.toLower

def keyOf (l : String) : List Char := (trim ((trim l.toList).takeWhile (· ≠ '='))).map lowerCase

def valOf (l : String) : List Char := trim (afterEq l.toList)

/-! The rotation. -/

def isKeyLine (key l : String) : Bool := keyOf l = "publickey".toList && valOf l = key.toList

/-- A line of the rotated peer: its preshared key goes, its old key becomes the new one. -/
def rotatedLine (old new l : String) : Option String :=
  if keyOf l = "presharedkey".toList then none
  else if isKeyLine old l then some ("PublicKey = " ++ new) else some l

def Section.holdsKey (sec : Section) (key : String) : Bool :=
  sec.isPeer && sec.lines.any (isKeyLine key)

/-- The first peer with the old key is rotated. -/
def rotateSection (old new : String) (s : Bool × List String) (sec : Section) :
    Bool × List String :=
  if !s.1 && sec.holdsKey old then (true, s.2 ++ sec.lines.filterMap (rotatedLine old new))
  else (s.1, s.2 ++ sec.lines)

/-- `_rewriteRotatedPeer`: whether a peer had the old key, and the text. -/
def rewriteRotatedPeer (conf : List String) (old new : String) : Bool × List String :=
  (sections conf).foldl (rotateSection old new) (false, [])

/-! The removal. -/

structure RemoveScan where
  out : List String
  inPeer : Bool
  skipBlock : Bool
  peerBuffer : List String

def isComment (l : String) : Bool := startsWith "#" (trim l.toList)

def isBlank (l : String) : Bool := trim l.toList = []

/-- The comments above a removed peer and the blank lines above them go with it. -/
def dropLead (out : List String) : List String := (out.rdropWhile isComment).rdropWhile isBlank

def isNamed (target l : String) : Bool :=
  startsWith "PublicKey" (trim l.toList) && trim (afterEq (trim l.toList)) = target.toList

namespace RemoveScan

def init : RemoveScan := ⟨[], false, false, []⟩

/-- `flushBuffer`, at the end of a peer. -/
def flush (s : RemoveScan) : List String :=
  if s.inPeer then (if s.skipBlock then dropLead s.out else s.out ++ s.peerBuffer) else s.out

def line (target : String) (s : RemoveScan) (rawLine : String) : RemoveScan :=
  if isPeerHeader rawLine then ⟨s.flush, true, false, [rawLine]⟩
  else if isHeader rawLine then ⟨s.flush ++ [rawLine], false, false, []⟩
  else if s.inPeer then
    { s with
      peerBuffer := s.peerBuffer ++ [rawLine], skipBlock := s.skipBlock || isNamed target rawLine }
  else { s with out := s.out ++ [rawLine] }

end RemoveScan

/-- `_removePeerFromConf`. The text ends with a line end. -/
def removePeerFromConf (conf : List String) (target : String) : List String :=
  let out := (conf.foldl (RemoveScan.line target) .init).flush.rdropWhile isBlank
  (if out = [] then [""] else out) ++ [""]

/-! The addresses of the peers. -/

/-- A line that gives a peer the address; `wg` reads the key in any case. -/
def listsAddress (T l : String) : Bool :=
  match keyValue (trim l.toList) with
  | some (k, v) => k.map lowerCase = "allowedips".toList && T ∈ commaList v
  | none => false

/-- No peer of the conf has the address. -/
def Free (T : String) (conf : List String) : Prop := ∀ l ∈ peerLines conf, listsAddress T l = false

/-- The peer names the key the way `_removePeerFromConf` looks for it. -/
def Section.names (sec : Section) (target : String) : Bool := sec.body.any (isNamed target)

/-! Keys of lines. -/

theorem isHeader_of_isPeerHeader (h : isPeerHeader l = true) : isHeader l = true := by
  rw [isHeader, of_decide_eq_true h]
  decide

theorem keyOf_cons {c : Char} {t : List Char} (h : trim l.toList = c :: t) (hc : isSpace c = false)
    (heq : c ≠ '=') :
    ∃ t', keyOf l = lowerCase c :: t' := by
  obtain ⟨t', ht'⟩ := trim_cons hc (t.takeWhile (· ≠ '='))
  refine ⟨t'.map lowerCase, ?_⟩
  rw [keyOf, h, List.takeWhile_cons, if_pos (by simpa using heq), ht', List.map_cons]

theorem keyOf_header (h : isHeader l = true) : ∃ t, keyOf l = '[' :: t := by
  obtain ⟨t, ht⟩ := List.isPrefixOf_iff_prefix.mp h
  exact keyOf_cons ht.symm (by decide) (by decide)

theorem listsAddress_of_keyOf (h : keyOf l ≠ "allowedips".toList) : listsAddress T l = false := by
  unfold listsAddress keyValue
  split
  · next k v hkv =>
    split at hkv
    · cases hkv
      change (decide (keyOf l = "allowedips".toList) && _) = false
      rw [decide_eq_false h, Bool.false_and]
    · cases hkv
  · rfl

/-- A line that starts with another letter is no header and gives no address. -/
theorem plain_of_head {c : Char} {t : List Char} (h : l.toList = c :: t)
    (hc : isSpace c = false ∧ c ≠ '[' ∧ c ≠ '=' ∧ lowerCase c ≠ 'a') :
    isHeader l = false ∧ listsAddress T l = false := by
  obtain ⟨t', ht'⟩ := trim_cons hc.1 t
  rw [← h] at ht'
  constructor
  · rw [isHeader, ht', startsWith]
    simpa [List.isPrefixOf] using hc.2.1.symm
  · obtain ⟨k, hk⟩ := keyOf_cons ht' hc.1 hc.2.2.1
    refine listsAddress_of_keyOf fun he => hc.2.2.2 ?_
    rw [hk] at he
    exact (List.cons.inj he).1

theorem plain_publicKey (key : String) :
    isHeader ("PublicKey = " ++ key) = false ∧ listsAddress T ("PublicKey = " ++ key) = false :=
  plain_of_head (c := 'P') (t := "ublicKey = ".toList ++ key.toList) String.toList_append
    (by decide)

theorem rotatedLine_header (h : isHeader l = true) : rotatedLine old new l = some l := by
  obtain ⟨t, ht⟩ := keyOf_header h
  rw [rotatedLine, isKeyLine, ht, if_neg (by simp), if_neg (by simp)]

theorem rotatedLine_eq_some {m : String} (h : rotatedLine old new l = some m) :
    m = l ∨ m = "PublicKey = " ++ new := by
  unfold rotatedLine at h
  split at h
  · cases h
  · split at h
    · exact .inr (Option.some.inj h).symm
    · exact .inl (Option.some.inj h).symm

/-! Addresses after a rewrite. -/

theorem Free.of_prefix (h : Free T conf) (hx : xs <+: conf) : Free T xs := by
  obtain ⟨ys, rfl⟩ := hx
  intro l hl
  exact h l (by rw [peerLines, peerLinesFrom_append]; exact List.mem_append_left _ hl)

theorem Free.append (h : Free T conf)
    (hx : ∀ l ∈ xs, isHeader l = false ∧ listsAddress T l = false) :
    Free T (conf ++ xs) := by
  intro l hl
  rw [peerLines, peerLinesFrom_append, peerLinesFrom_plain fun m hm => (hx m hm).1] at hl
  rcases List.mem_append.mp hl with hl | hl
  · exact h l hl
  · split at hl
    · exact (hx l hl).2
    · simp at hl

/-- A block of lines behind a header. -/
theorem Free.block {body : List String} (h : Free T conf) (hl : isHeader l = true)
    (hbody : ∀ m ∈ body, isHeader m = false)
    (hfree : isPeerHeader l = true → ∀ m ∈ body, listsAddress T m = false) :
    Free T (conf ++ l :: body) := by
  intro m hm
  rw [peerLines_block hl hbody] at hm
  rcases List.mem_append.mp hm with hm | hm
  · exact h m hm
  · split at hm
    · next hpeer => exact hfree hpeer m hm
    · simp at hm

theorem Free.section (h : Free T conf) (hsec : sec.header.isSome = true ∨ conf = [])
    (hfree : sec.isPeer = true → ∀ l ∈ sec.body, listsAddress T l = false) :
    Free T (conf ++ sec.lines) := by
  obtain ⟨header, body, headed, plain⟩ := sec
  cases header with
  | none =>
    obtain rfl : conf = [] := hsec.resolve_left nofun
    intro l hl
    rw [List.nil_append, Section.lines, Option.toList_none, List.nil_append, peerLines,
      peerLinesFrom_plain plain] at hl
    simp at hl
  | some head => exact h.block (headed head rfl) plain hfree

/-! The sections of a conf, one after the other. -/

/-- Folding over the sections keeps what the first section makes true of a fresh start and every
headed section keeps. -/
theorem foldl_sections {β : Type} {f : β → Section → β} {s : β} {I : β → Prop}
    (hfirst : ∀ sec ∈ sections conf, I (f s sec))
    (hstep : ∀ s, I s → ∀ sec ∈ sections conf, sec.header.isSome = true → I (f s sec)) :
    I ((sections conf).foldl f s) := by
  obtain ⟨first, rest, heq, hrest⟩ := sections_headed conf
  rw [heq, List.foldl_cons]
  refine List.foldlRecOn rest f (hfirst first (heq ▸ List.mem_cons_self)) fun t ht sec hsec => ?_
  exact hstep t ht sec (heq ▸ List.mem_cons_of_mem _ hsec) (hrest sec hsec)

/-! The rotation keeps the addresses. -/

/-- A rotated peer is a block again, with the lines it had and the new key. -/
theorem rotated_block {h : String} (old new : String) (hheader : sec.header = some h) :
    ∃ body, sec.lines.filterMap (rotatedLine old new) = h :: body ∧
    (∀ l ∈ body, isHeader l = false) ∧
      ∀ l ∈ body, l ∈ sec.body ∨ l = "PublicKey = " ++ new := by
  have hhead := sec.headed h hheader
  refine ⟨sec.body.filterMap (rotatedLine old new), ?_, ?_, ?_⟩
  · rw [Section.lines, hheader, Option.toList_some, List.singleton_append, List.filterMap_cons,
      rotatedLine_header hhead]
  · intro l hl
    obtain ⟨m, hm, hrot⟩ := List.mem_filterMap.mp hl
    rcases rotatedLine_eq_some hrot with rfl | rfl
    · exact sec.plain l hm
    · exact (plain_publicKey (T := new) new).1
  · intro l hl
    obtain ⟨m, hm, hrot⟩ := List.mem_filterMap.mp hl
    rcases rotatedLine_eq_some hrot with rfl | rfl
    · exact .inl hm
    · exact .inr rfl

theorem Section.exists_header (h : sec.isPeer = true) :
    ∃ head, sec.header = some head ∧ isPeerHeader head = true := by
  cases hheader : sec.header with
  | none => simp [Section.isPeer, hheader] at h
  | some head => exact ⟨head, rfl, by simpa [Section.isPeer, hheader] using h⟩

theorem free_iff : Free T conf ↔
    ∀ sec ∈ sections conf, sec.isPeer = true → ∀ l ∈ sec.body, listsAddress T l = false := by
  unfold Free
  rw [peerLines_eq]
  constructor
  · intro h sec hsec hpeer l hl
    exact h l (List.mem_flatMap.mpr ⟨sec, hsec, by rwa [Section.peerBody, if_pos hpeer]⟩)
  · intro h l hl
    obtain ⟨sec, hsec, hl⟩ := List.mem_flatMap.mp hl
    rw [Section.peerBody] at hl
    split at hl
    · next hpeer => exact h sec hsec hpeer l hl
    · simp at hl

/-- A rotation gives no peer an address. -/
theorem Free.rotated (h : Free T conf) : Free T (rewriteRotatedPeer conf old new).2 := by
  have hlines := free_iff.mp h
  have hstep : ∀ (s : Bool × List String), Free T s.2 → ∀ sec ∈ sections conf,
      sec.header.isSome = true ∨ s.2 = [] → Free T (rotateSection old new s sec).2 := by
    intro s hs sec hsec hhead
    rw [rotateSection]
    split
    · next hold =>
      have hpeer : sec.isPeer = true := by
        rw [Bool.and_eq_true, Section.holdsKey, Bool.and_eq_true] at hold
        exact hold.2.1
      obtain ⟨head, hheader, hpeerHeader⟩ := Section.exists_header hpeer
      obtain ⟨body, hbody, hplain, hmem⟩ := rotated_block old new hheader
      rw [hbody]
      refine hs.block (isHeader_of_isPeerHeader hpeerHeader) hplain fun _ l hl => ?_
      rcases hmem l hl with hl | rfl
      · exact hlines sec hsec hpeer l hl
      · exact (plain_publicKey new).2
    · exact hs.section hhead fun hpeer => hlines sec hsec hpeer
  have hnil : Free T [] := nofun
  refine foldl_sections (I := fun s : Bool × List String => Free T s.2) (fun sec hsec => ?_) fun s
    hs sec hsec hhead => ?_
  · exact hstep (false, []) hnil sec hsec (.inr rfl)
  · exact hstep s hs sec hsec (.inl hhead)

/-- The rotation finds a peer exactly when some peer has the old key. -/
theorem rewriteRotatedPeer_swaps :
    (rewriteRotatedPeer conf old new).1 = (sections conf).any (·.holdsKey old) := by
  have hfold : ∀ (secs : List Section) (s : Bool × List String),
      (secs.foldl (rotateSection old new) s).1 = (s.1 || secs.any (·.holdsKey old)) := by
    intro secs
    induction secs with
    | nil => simp
    | cons sec secs ih =>
      intro s
      rw [List.foldl_cons, ih, rotateSection, List.any_cons]
      cases s.1 <;> cases sec.holdsKey old <;> rfl
  rw [rewriteRotatedPeer, hfold, Bool.false_or]

/-- Once a peer is found, the new key is in the conf. -/
theorem publicKey_of_rotated (h : (rewriteRotatedPeer conf old new).1 = true) :
    "PublicKey = " ++ new ∈ peerLines (rewriteRotatedPeer conf old new).2 := by
  have hstep : ∀ (s : Bool × List String) (sec : Section),
    (s.1 = true → "PublicKey = " ++ new ∈ peerLines s.2) →
      (rotateSection old new s sec).1 = true →
        "PublicKey = " ++ new ∈ peerLines (rotateSection old new s sec).2 := by
    intro s sec hs
    rw [rotateSection]
    split
    · next hold =>
      intro _
      rw [Bool.and_eq_true, Section.holdsKey, Bool.and_eq_true] at hold
      obtain ⟨-, hpeer, hkey⟩ := hold
      obtain ⟨head, hheader, hpeerHeader⟩ := Section.exists_header hpeer
      obtain ⟨body, hbody, hplain, -⟩ := rotated_block old new hheader
      obtain ⟨l, hl, hlkey⟩ := List.any_eq_true.mp hkey
      have hrot : rotatedLine old new l = some ("PublicKey = " ++ new) := by
        have hname : keyOf l = "publickey".toList := by
          rw [isKeyLine, Bool.and_eq_true] at hlkey
          exact of_decide_eq_true hlkey.1
        rw [rotatedLine, if_neg (by rw [hname]; decide), if_pos hlkey]
      have hmem : "PublicKey = " ++ new ∈ head :: body :=
        hbody ▸ List.mem_filterMap.mpr ⟨l, hl, hrot⟩
      have hhead := isHeader_of_isPeerHeader hpeerHeader
      rw [hbody, peerLines_block hhead hplain, if_pos hpeerHeader]
      rcases List.mem_cons.mp hmem with heq | hmem
      · rw [← heq, (plain_publicKey (T := new) new).1] at hhead
        cases hhead
      · exact List.mem_append_right _ hmem
    · intro hswapped
      rw [peerLines, peerLinesFrom_append]
      exact List.mem_append_left _ (hs hswapped)
  refine List.foldlRecOn (motive := fun s : Bool × List String => s.1 = true →
    "PublicKey = " ++ new ∈ peerLines s.2)
    (sections conf) (rotateSection old new) (fun hf => absurd hf Bool.false_ne_true)
      (fun s hs sec _ => hstep s sec hs) h

/-! The removal, section by section. -/

def removeSection (target : String) (out : List String) (sec : Section) : List String :=
  if sec.isPeer && sec.names target then dropLead out else out ++ sec.lines

theorem isPeerHeader_eq_false (h : isHeader l = false) : isPeerHeader l = false :=
  Bool.eq_false_iff.mpr fun hp => by rw [isHeader_of_isPeerHeader hp] at h; cases h

/-- Lines of a peer are kept back until its end. -/
theorem foldl_line_inPeer {s : RemoveScan} {body : List String} (hs : s.inPeer = true)
    (hbody : ∀ l ∈ body, isHeader l = false) : body.foldl (RemoveScan.line target) s =
      ⟨s.out, true, s.skipBlock || body.any (isNamed target), s.peerBuffer ++ body⟩ := by
  induction body generalizing s with
  | nil => simp [← hs]
  | cons l body ih =>
    have hl := hbody l List.mem_cons_self
    have hline : s.line target l = ⟨s.out, true, s.skipBlock || isNamed target l,
        s.peerBuffer ++ [l]⟩ := by
      simp [RemoveScan.line, hl, isPeerHeader_eq_false hl, hs]
    rw [List.foldl_cons, hline, ih rfl fun m hm => hbody m (List.mem_cons_of_mem _ hm)]
    simp [Bool.or_assoc]

/-- Other lines are kept as they come. -/
theorem flush_foldl_line {s : RemoveScan} {body : List String} (hs : s.inPeer = false)
    (hbody : ∀ l ∈ body, isPeerHeader l = false) :
    (body.foldl (RemoveScan.line target) s).flush = s.out ++ body ∧
      (body.foldl (RemoveScan.line target) s).inPeer = false := by
  induction body generalizing s with
  | nil => simp [RemoveScan.flush, hs]
  | cons l body ih =>
    have hline : (s.line target l).out = s.out ++ [l] ∧ (s.line target l).inPeer = false := by
      rw [RemoveScan.line, if_neg (by simp [hbody l List.mem_cons_self])]
      split
      · simp [RemoveScan.flush, hs]
      · simp [hs]
    obtain ⟨hflush, hin⟩ := ih hline.2 fun m hm => hbody m (List.mem_cons_of_mem _ hm)
    rw [List.foldl_cons]
    exact ⟨by rw [hflush, hline.1, List.append_assoc, List.singleton_append], hin⟩

theorem flush_section {s : RemoveScan} (h : sec.header.isSome = true ∨ s = .init) :
    (sec.lines.foldl (RemoveScan.line target) s).flush = removeSection target s.flush sec := by
  obtain ⟨header, body, headed, plain⟩ := sec
  cases header with
  | none =>
    obtain rfl : s = .init := h.resolve_left nofun
    exact (flush_foldl_line rfl fun l hl => isPeerHeader_eq_false (plain l hl)).1
  | some head =>
    have hhead := headed head rfl
    rw [Section.lines, Option.toList_some, List.singleton_append, List.foldl_cons]
    by_cases hpeer : isPeerHeader head = true
    · have hline : s.line target head = ⟨s.flush, true, false, [head]⟩ := by
        simp [RemoveScan.line, hpeer]
      rw [hline, foldl_line_inPeer rfl plain]
      simp [RemoveScan.flush, removeSection, Section.isPeer, hpeer, Section.names, Section.lines]
    · have hline : s.line target head = ⟨s.flush ++ [head], false, false, []⟩ := by
        simp [RemoveScan.line, hpeer, hhead]
      rw [hline, (flush_foldl_line rfl fun l hl => isPeerHeader_eq_false (plain l hl)).1]
      simp [removeSection, Section.isPeer, hpeer, Section.lines]

theorem flush_foldl (conf : List String) : (conf.foldl (RemoveScan.line target) .init).flush =
    (sections conf).foldl (removeSection target) [] :=
  foldl_by_section (fun _ _ h => flush_section h) conf

/-- Once every peer with the address that names the key is removed, no peer has the address. -/
theorem free_removePeerFromConf (h : ∀ sec ∈ sections conf, sec.isPeer = true →
    sec.body.any (listsAddress T) = true → sec.names target = true) : Free T
      (removePeerFromConf conf target) := by
  have hnil : Free T [] := nofun
  have hstep : ∀ out, Free T out → ∀ sec ∈ sections conf, sec.header.isSome = true ∨ out = [] →
      Free T (removeSection target out sec) := by
    intro out hout sec hsec hhead
    rw [removeSection]
    split
    · exact hout.of_prefix ((List.rdropWhile_prefix _ _).trans (List.rdropWhile_prefix _ _))
    · next hkeep =>
      refine hout.section hhead fun hpeer l hl => ?_
      rw [hpeer, Bool.true_and] at hkeep
      exact Bool.eq_false_iff.mpr fun hlists =>
        hkeep (h sec hsec hpeer (List.any_eq_true.mpr ⟨l, hl, hlists⟩))
  have hout : Free T ((sections conf).foldl (removeSection target) []) :=
    foldl_sections (fun sec hsec => hstep [] hnil sec hsec (.inr rfl))
      fun out ho sec hsec hhead => hstep out ho sec hsec (.inl hhead)
  have hblank : ∀ l ∈ [""], isHeader l = false ∧ listsAddress T l = false := by
    intro l hl
    rw [List.mem_singleton.mp hl]
    exact ⟨by decide, listsAddress_of_keyOf (by decide)⟩
  have htrimmed := hout.of_prefix (List.rdropWhile_prefix isBlank _)
  rw [removePeerFromConf, flush_foldl]
  split
  · exact (hnil.append hblank).append hblank
  · exact htrimmed.append hblank

end FloppyGuard.WireGuard
