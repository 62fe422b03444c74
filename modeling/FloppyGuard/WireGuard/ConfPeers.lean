import FloppyGuard.WireGuard.PeerRewrite

/-! What the parser makes of a conf, section by section; blank lines and comments do not count. -/
namespace FloppyGuard.WireGuard

open Text

variable {conf xs ys body : List String} {sec : Section} {l key : String}

/-! The keys the parser looks for. -/

def publicKeyOf (l : String) : Option String :=
  match keyValue (trim l.toList) with
  | some (k, v) => if k = "PublicKey".toList then some (String.ofList v) else none
  | none => none

def allowedIPsOf (l : String) : Option (List String) :=
  match keyValue (trim l.toList) with
  | some (k, v) => if k = "AllowedIPs".toList then some (commaList v) else none
  | none => none

namespace Section

/-- The last key of a section counts. -/
def publicKey (sec : Section) : Option String := (sec.body.filterMap publicKeyOf).getLast?

/-- The last list counts. -/
def allowedIPs (sec : Section) : List String := ((sec.body.filterMap allowedIPsOf).getLast?).getD []

/-- The key the parser files the peer under. -/
def peerKey (sec : Section) : Option String :=
  if sec.isPeer then sec.publicKey.filter (· ≠ "") else none

end Section

def addPeer (peers : Table String (List String)) (sec : Section) : Table String (List String) :=
  match sec.peerKey with
  | some key => peers.set key sec.allowedIPs
  | none => peers

theorem Section.peerKey_eq_some :
    sec.peerKey = some key ↔ sec.isPeer = true ∧ sec.publicKey = some key ∧ key ≠ "" := by
  rw [Section.peerKey]
  split
  · next hpeer => simp [hpeer, Option.filter_eq_some_iff]
  · next hpeer => simp [hpeer]

theorem addPeer_of_none {peers : Table String (List String)} (h : sec.peerKey = none) :
    addPeer peers sec = peers := by
  rw [addPeer, h]

theorem addPeer_of_some {peers : Table String (List String)} (h : sec.peerKey = some key) :
    addPeer peers sec = peers.set key sec.allowedIPs := by
  rw [addPeer, h]

theorem startsWith_of_keyValue {v : List Char}
    (h : keyValue (trim l.toList) = some (key.toList, v)) :
    startsWith key (trim l.toList) = true ∧ trim (afterEq (trim l.toList)) = v := by
  unfold keyValue at h
  split at h
  · next heq =>
    obtain ⟨hk, hv⟩ := Prod.mk.inj (Option.some.inj h)
    constructor
    · -- the text before the `=` starts where the line does
      have hhead : ∀ c ∈ ((trim l.toList).takeWhile (· ≠ '=')).head?, isSpace c = false := by
        intro c hc
        refine head?_trim (s := l.toList) c ?_
        cases ht : trim l.toList with
        | nil => simp [ht] at hc
        | cons d t =>
          rw [ht, List.takeWhile_cons] at hc
          split at hc
          · simpa using hc
          · simp at hc
      have hfront : trim ((trim l.toList).takeWhile (· ≠ '=')) <+: (trim l.toList).takeWhile
          (· ≠ '=') := by
        rw [trim, dropWhile_eq_self hhead, ← List.reverse_suffix, List.reverse_reverse]
        exact List.dropWhile_suffix _
      rw [hk] at hfront
      exact List.isPrefixOf_iff_prefix.mpr (hfront.trans (List.takeWhile_prefix _))
    · rw [afterEq, if_pos heq, hv]
  · cases h

theorem keyOf_of_keyValue {k v : List Char} (h : keyValue (trim l.toList) = some (k, v)) :
    keyOf l = k.map lowerCase := by
  unfold keyValue at h
  split at h
  · rw [keyOf, (Prod.mk.inj (Option.some.inj h)).1]
  · cases h

theorem keyOf_of_publicKeyOf (h : publicKeyOf l = some key) : keyOf l = "publickey".toList := by
  unfold publicKeyOf at h
  split at h
  · next k v hkv =>
    split at h
    · next hk =>
      rw [keyOf_of_keyValue hkv, hk]
      decide
    · cases h
  · cases h

theorem keyOf_of_allowedIPsOf {list : List String} (h : allowedIPsOf l = some list) :
    keyOf l = "allowedips".toList := by
  unfold allowedIPsOf at h
  split at h
  · next k v hkv =>
    split at h
    · next hk =>
      rw [keyOf_of_keyValue hkv, hk]
      decide
    · cases h
  · cases h

theorem startsWith_of_publicKeyOf (h : publicKeyOf l = some key) :
    startsWith "PublicKey" (trim l.toList) = true ∧
    trim (afterEq (trim l.toList)) = key.toList := by
  unfold publicKeyOf at h
  split at h
  · next k v hkv =>
    split at h
    · next hk =>
      subst hk
      rw [← Option.some.inj h, String.toList_ofList]
      exact startsWith_of_keyValue hkv
    · cases h
  · cases h

theorem publicKeyOf_eq_none (h : startsWith "PublicKey" (trim l.toList) = false) :
    publicKeyOf l = none := by
  cases hkey : publicKeyOf l with
  | none => rfl
  | some key =>
    rw [(startsWith_of_publicKeyOf hkey).1] at h
    cases h

/-- White space around a line does not change its value. -/
theorem trim_afterEq (s : List Char) : trim (afterEq (trim s)) = trim (afterEq s) := by
  obtain ⟨a, b, hs, ha, hb⟩ := exists_trim s
  have hspace : isSpace '=' = false := by decide
  by_cases heq : '=' ∈ trim s
  · have hno : ∀ c ∈ a, decide (c ≠ '=') = true := fun c hc => decide_eq_true fun he => by
      rw [← he, ha c hc] at hspace
      cases hspace
    have htail : ((trim s ++ b).dropWhile (· ≠ '=')).tail = ((trim s).dropWhile (· ≠ '=')).tail ++
        b := by
      cases hd : (trim s).dropWhile (· ≠ '=') with
      | nil => exact absurd (List.dropWhile_eq_nil_iff.mp hd '=' heq) (by simp)
      | cons c t => rw [List.dropWhile_append, hd]; rfl
    rw [afterEq, if_pos heq, afterEq, if_pos (mem_of_mem_trim heq)]
    conv_rhs => rw [hs, List.append_assoc, List.dropWhile_append_of_pos hno, htail,
      trim_append_space hb]
  · have hno : '=' ∉ s := by
      intro hmem
      rw [hs] at hmem
      rcases List.mem_append.mp hmem with hmem | hmem
      · rcases List.mem_append.mp hmem with hmem | hmem
        · rw [ha _ hmem] at hspace
          cases hspace
        · exact heq hmem
      · rw [hb _ hmem] at hspace
        cases hspace
    rw [afterEq, if_neg heq, afterEq, if_neg hno, trim_trim]

/-! Lines as they are written. -/

/-- A key and its value, one space on each side of the `=`. -/
theorem keyValue_line {k : List Char} (hne : k ≠ []) (hk : trim k = k) (heq : '=' ∉ k)
    (v : List Char) :
    keyValue (trim (k ++ " = ".toList ++ v)) = some (k, trim v) := by
  have hhead : ∀ c ∈ (k ++ [' ']).head?, isSpace c = false := by
    obtain ⟨d, t, rfl⟩ := List.exists_cons_of_ne_nil hne
    intro c hc
    refine head?_trim (s := d :: t) c ?_
    rw [hk]
    exact hc
  have hno : ∀ c ∈ k ++ [' '], decide (c ≠ '=') = true := by
    intro c hc
    rcases List.mem_append.mp hc with hc | hc
    · exact decide_eq_true fun he => heq (he ▸ hc)
    · rw [List.mem_singleton.mp hc]
      rfl
  have htext : k ++ " = ".toList ++ v = (k ++ [' ']) ++ '=' :: (' ' :: v) := by simp
  have hkey : trim (k ++ [' ']) = k := (trim_append_space (by decide)).trans hk
  have hval : trim (' ' :: v) = trim v := by rw [trim, List.dropWhile_cons_of_pos (by decide), trim]
  rw [htext, trim_append_cons_eq hhead (by decide), keyValue, if_pos (by simp),
    List.takeWhile_append_of_pos hno,
    List.dropWhile_append_of_pos hno, List.takeWhile_cons, if_neg (by decide), List.dropWhile_cons,
      if_neg (by decide),
    List.append_nil, List.tail_cons, hkey, trim_dropEnd, hval]

theorem publicKeyOf_line (key : String) :
    publicKeyOf ("PublicKey = " ++ key) = some (String.ofList (trim key.toList)) := by
  have hkv := keyValue_line (k := "PublicKey".toList) (by decide) (by decide) (by decide) key.toList
  have htext : ("PublicKey = " ++ key).toList = "PublicKey".toList ++ " = ".toList ++ key.toList :=
    String.toList_append
  rw [publicKeyOf, htext, hkv]
  rfl

/-- What a line starts with decides that it is no header, and which keys it does not have. -/
theorem isHeader_of_head {c : Char} {t : List Char} (h : l.toList = c :: t) (hc : isSpace c = false)
    (hne : c ≠ '[') :
    isHeader l = false := by
  obtain ⟨t', ht'⟩ := trim_cons hc t
  rw [isHeader, h, ht', startsWith]
  simpa [List.isPrefixOf] using hne.symm

/-! The parser reads a conf section by section. -/

theorem keyValue_comment {t : List Char} (h : "#".toList.isPrefixOf t = true) {k v : List Char}
    (hkv : keyValue t = some (k, v)) : k.head? = some '#' := by
  obtain ⟨rest, rfl⟩ := List.isPrefixOf_iff_prefix.mp h
  unfold keyValue at hkv
  split at hkv
  · cases hkv
    obtain ⟨t, ht⟩ := trim_cons (c := '#') (by decide) (rest.takeWhile (· ≠ '='))
    change (trim ((['#'] ++ rest).takeWhile (· ≠ '='))).head? = some '#'
    rw [List.singleton_append, List.takeWhile_cons, if_pos (by decide), ht]
    rfl
  · cases hkv

theorem PeerScan.line_plain {s : PeerScan} (hin : s.inPeer = true) (h : isHeader l = false) :
    s.line l = ⟨s.peers, true, (publicKeyOf l).or s.currentPubKey,
      (allowedIPsOf l).getD s.currentAllowedIPs⟩ := by
  have hpeer : trim l.toList ≠ "[Peer]".toList := of_decide_eq_false (isPeerHeader_eq_false h)
  have hhead : ¬ "[".toList.isPrefixOf (trim l.toList) = true := Bool.eq_false_iff.mp h
  have hkeep : s = ⟨s.peers, true, s.currentPubKey, s.currentAllowedIPs⟩ := by rw [← hin]
  unfold PeerScan.line publicKeyOf allowedIPsOf
  dsimp only
  rw [if_neg hpeer, if_neg hhead]
  split
  · next hcomment =>
    cases hkv : keyValue (trim l.toList) with
    | none => exact hkeep
    | some p =>
      obtain ⟨k, v⟩ := p
      have hk := keyValue_comment hcomment hkv
      have hpub : k ≠ "PublicKey".toList := by
        rintro rfl
        simp at hk
      have hips : k ≠ "AllowedIPs".toList := by
        rintro rfl
        simp at hk
      dsimp only
      rw [if_neg hpub, if_neg hips]
      exact hkeep
  · cases hkv : keyValue (trim l.toList) with
    | none => exact hkeep
    | some p =>
      obtain ⟨k, v⟩ := p
      dsimp only
      rw [hin]
      by_cases hpub : k = "PublicKey".toList
      · subst hpub
        rw [if_pos rfl, if_pos rfl, if_neg (by decide)]
        rfl
      · rw [if_neg hpub, if_neg hpub]
        split
        · rfl
        · exact hkeep

theorem PeerScan.line_header {s : PeerScan} (h : isHeader l = true) :
    s.line l = ⟨s.flush, isPeerHeader l, none, if isPeerHeader l then []
      else s.currentAllowedIPs⟩ := by
  unfold PeerScan.line
  dsimp only
  split
  · next hpeer => rw [isPeerHeader, decide_eq_true hpeer, if_pos rfl]
  · next hpeer =>
    have hhead : "[".toList.isPrefixOf (trim l.toList) = true := h
    rw [if_pos hhead, isPeerHeader, decide_eq_false hpeer, if_neg Bool.false_ne_true]

theorem PeerScan.line_outside {s : PeerScan} (hin : s.inPeer = false) (h : isHeader l = false) :
    s.line l = s := by
  have hpeer : trim l.toList ≠ "[Peer]".toList := of_decide_eq_false (isPeerHeader_eq_false h)
  have hhead : ¬ "[".toList.isPrefixOf (trim l.toList) = true := Bool.eq_false_iff.mp h
  unfold PeerScan.line
  dsimp only
  rw [if_neg hpeer, if_neg hhead]
  split
  · rfl
  split
  · rfl
  · rw [if_neg (by simp [hin])]

theorem foldl_parse_inPeer {s : PeerScan} (hin : s.inPeer = true)
    (h : ∀ l ∈ body, isHeader l = false) :
    body.foldl PeerScan.line s =
      ⟨s.peers, true, ((body.filterMap publicKeyOf).getLast?).or s.currentPubKey,
      ((body.filterMap allowedIPsOf).getLast?).getD s.currentAllowedIPs⟩ := by
  induction body generalizing s with
  | nil => simp [← hin]
  | cons l body ih =>
    rw [List.foldl_cons, PeerScan.line_plain hin (h l List.mem_cons_self), ih rfl fun m hm =>
      h m (List.mem_cons_of_mem _ hm),
      List.filterMap_cons, List.filterMap_cons]
    cases publicKeyOf l <;> cases allowedIPsOf l <;> simp [List.getLast?_cons]

theorem foldl_parse_outside {s : PeerScan} (hin : s.inPeer = false)
    (h : ∀ l ∈ body, isHeader l = false) :
    body.foldl PeerScan.line s = s := by
  induction body with
  | nil => rfl
  | cons l body ih =>
    rw [List.foldl_cons, PeerScan.line_outside hin (h l List.mem_cons_self)]
    exact ih fun m hm => h m (List.mem_cons_of_mem _ hm)

theorem PeerScan.flush_section {s : PeerScan} (h : sec.header.isSome = true ∨ s = .init) :
    (sec.lines.foldl PeerScan.line s).flush = addPeer s.flush sec := by
  obtain ⟨header, body, headed, plain⟩ := sec
  cases header with
  | none =>
    obtain rfl : s = .init := h.resolve_left nofun
    rw [Section.lines, Option.toList_none, List.nil_append, foldl_parse_outside rfl plain]
    rfl
  | some head =>
    rw [Section.lines, Option.toList_some, List.singleton_append, List.foldl_cons,
      PeerScan.line_header (headed head rfl)]
    cases hpeer : isPeerHeader head with
    | false =>
      rw [foldl_parse_outside rfl plain]
      simp [PeerScan.flush, addPeer, Section.peerKey, Section.isPeer, hpeer]
    | true =>
      rw [foldl_parse_inPeer rfl plain]
      simp only [PeerScan.flush, addPeer, Section.peerKey, Section.isPeer, hpeer, Section.publicKey,
        Section.allowedIPs,
        Option.any_some, if_true, Option.or_none]
      cases (body.filterMap publicKeyOf).getLast? with
      | none => rfl
      | some key =>
        by_cases hkey : key = ""
        · subst hkey
          rfl
        · have hsome : (some key).filter (fun key => decide (key ≠ "")) = some key := by simp [hkey]
          rw [hsome]
          simp [hkey]

theorem parsePeersFromConf_eq (conf : List String) :
    parsePeersFromConf conf = (sections conf).foldl addPeer .empty :=
  foldl_by_section (fun _ _ h => PeerScan.flush_section h) conf

/-! Blank lines and comments. -/

theorem filterMap_filter_of_imp {α β : Type*} {f : α → Option β} {p : α → Bool} {xs : List α}
    (h : ∀ a b, f a = some b → p a = true) : (xs.filter p).filterMap f = xs.filterMap f := by
  rw [List.filterMap_filter]
  refine List.filterMap_congr fun a _ => ?_
  cases hf : f a with
  | none => simp
  | some b => simp [h a b hf]

/-- Neither blank nor a comment. -/
def isCode (l : String) : Bool := !isBlank l && !isComment l

theorem isCode_of_head {c : Char} (h : (trim l.toList).head? = some c) (hc : c ≠ '#') :
    isCode l = true := by
  cases ht : trim l.toList with
  | nil => simp [ht] at h
  | cons d t =>
    obtain rfl : d = c := by simpa [ht] using h
    simp [isCode, isBlank, isComment, startsWith, ht, List.isPrefixOf, Ne.symm hc]

theorem isCode_of_header (h : isHeader l = true) : isCode l = true := by
  obtain ⟨t, ht⟩ := List.isPrefixOf_iff_prefix.mp h
  refine isCode_of_head (c := '[') ?_ (by decide)
  rw [← ht]
  rfl

theorem isCode_of_keyValue {k v : List Char} {c : Char} (h : keyValue (trim l.toList) = some (k, v))
    (hk : k.head? = some c)
    (hc : c ≠ '#') : isCode l = true := by
  rw [isCode, Bool.and_eq_true, Bool.not_eq_true', Bool.not_eq_true']
  constructor
  · refine decide_eq_false fun hblank => ?_
    simp [hblank, keyValue] at h
  · refine Bool.eq_false_iff.mpr fun hcomment => hc ?_
    have hhash := keyValue_comment hcomment h
    exact Option.some.inj (hk.symm.trans hhash)

theorem isCode_of_publicKeyOf (h : publicKeyOf l = some key) : isCode l = true := by
  unfold publicKeyOf at h
  split at h
  · next k v hkv =>
    split at h
    · next hk => exact isCode_of_keyValue hkv (c := 'P') (by rw [hk]; rfl) (by decide)
    · cases h
  · cases h

theorem isCode_of_allowedIPsOf {list : List String} (h : allowedIPsOf l = some list) :
    isCode l = true := by
  unfold allowedIPsOf at h
  split at h
  · next k v hkv =>
    split at h
    · next hk => exact isCode_of_keyValue hkv (c := 'A') (by rw [hk]; rfl) (by decide)
    · cases h
  · cases h

namespace Section

/-- The section without blank lines and comments. -/
def strip (sec : Section) : Section where
  header := sec.header
  body := sec.body.filter isCode
  headed := sec.headed
  plain l hl := sec.plain l (List.mem_filter.mp hl).1

theorem lines_strip (sec : Section) : sec.strip.lines = sec.lines.filter isCode := by
  have hhead : sec.header.toList.filter isCode = sec.header.toList := by
    refine List.filter_eq_self.mpr fun l hl => isCode_of_header (sec.headed l ?_)
    simpa using hl
  rw [lines, lines, List.filter_append, hhead]
  rfl

theorem publicKey_strip (sec : Section) : sec.strip.publicKey = sec.publicKey := by
  rw [publicKey, publicKey, strip, filterMap_filter_of_imp fun _ _ => isCode_of_publicKeyOf]

theorem allowedIPs_strip (sec : Section) : sec.strip.allowedIPs = sec.allowedIPs := by
  rw [allowedIPs, allowedIPs, strip, filterMap_filter_of_imp fun _ _ => isCode_of_allowedIPsOf]

theorem peerKey_strip (sec : Section) : sec.strip.peerKey = sec.peerKey := by
  rw [peerKey, peerKey, publicKey_strip]
  rfl

end Section

theorem sections_filter_isCode (conf : List String) :
    sections (conf.filter isCode) = (sections conf).map Section.strip := by
  obtain ⟨first, rest, heq, hfirst, hrest⟩ := sections_cons conf
  have hlines : conf.filter isCode = ((first.strip :: rest.map Section.strip)).flatMap
      Section.lines := by
    rw [← flatMap_sections conf, heq, ← List.map_cons, List.filter_flatMap, List.flatMap_map]
    exact List.flatMap_congr fun sec _ => (Section.lines_strip sec).symm
  have hheaded : ∀ sec ∈ rest.map Section.strip, sec.header.isSome = true := by
    intro sec hsec
    obtain ⟨orig, horig, rfl⟩ := List.mem_map.mp hsec
    exact hrest orig horig
  have hnone : first.strip.header = none := hfirst
  rw [hlines, sections_flatMap hnone hheaded, heq, List.map_cons]

theorem addPeer_strip (peers : Table String (List String)) (sec : Section) :
    addPeer peers sec.strip = addPeer peers sec := by
  rw [addPeer, addPeer, Section.peerKey_strip, Section.allowedIPs_strip]

/-- The parser does not see blank lines and comments. -/
theorem parsePeersFromConf_filter_isCode (conf : List String) :
    parsePeersFromConf (conf.filter isCode) = parsePeersFromConf conf := by
  rw [parsePeersFromConf_eq, parsePeersFromConf_eq, sections_filter_isCode, List.foldl_map]
  exact congrArg (fun f => (sections conf).foldl f .empty) (funext fun peers => funext fun sec =>
    addPeer_strip peers sec)

end FloppyGuard.WireGuard
