import FloppyGuard.WireGuard.ConfPeers

/-! `_removePeerFromConf`: the sections that go, and the lines that go with them. -/
namespace FloppyGuard.WireGuard

open Text

variable {conf out xs : List String} {sec : Section} {l key target : String}

/-- A section the parser reads as a peer with the key. -/
def Section.isPeerOf (target : String) (sec : Section) : Bool :=
  sec.isPeer && sec.publicKey = some target

/-- A conf without one peer: the lines that count are those of the other sections, and the other
peers and the sections that are no peers are read as before. -/
structure RemovesExactly (target : String) (conf out : List String) : Prop where
  lines : out.filter isCode = ((sections conf).filter (!·.isPeerOf target)).flatMap fun sec =>
    sec.lines.filter isCode
  parsed : parsePeersFromConf out = (parsePeersFromConf conf).erase target
  others : ((sections out).filter (!·.isPeer)).map Section.strip =
    ((sections conf).filter (!·.isPeer)).map Section.strip

/-- The last key of every peer that names the key is that key. -/
def NamedLast (target : String) (conf : List String) : Prop :=
  ∀ sec ∈ sections conf, sec.isPeer = true → sec.names target = true → sec.publicKey = some target

/-! The code's own test finds every such peer. -/

theorem names_of_publicKey (h : sec.publicKey = some target) : sec.names target = true := by
  obtain ⟨l, hl, hkey⟩ := List.mem_filterMap.mp (List.mem_of_getLast? h)
  obtain ⟨hstart, hval⟩ := startsWith_of_publicKeyOf hkey
  exact List.any_eq_true.mpr ⟨l, hl, by simp [isNamed, hstart, hval]⟩

/-! The lines that count. -/

theorem filter_rdropWhile {α : Type*} {p q : α → Bool} (h : ∀ a, p a = true → q a = false)
    (xs : List α) :
    (xs.rdropWhile p).filter q = xs.filter q := by
  induction xs using List.reverseRecOn with
  | nil => rfl
  | append_singleton xs a ih =>
    rw [List.rdropWhile_concat]
    split
    · next ha => rw [ih, List.filter_append, List.filter_singleton, h a ha]; simp
    · rfl

theorem filter_dropLead (out : List String) : (dropLead out).filter isCode = out.filter isCode := by
  rw [dropLead, filter_rdropWhile fun l hl =>
    by simp [isCode, hl], filter_rdropWhile fun l hl => by simp [isCode, hl]]

theorem filter_removePeerFromConf (conf : List String) (target : String) :
    (removePeerFromConf conf target).filter isCode =
    ((sections conf).filter fun sec => !(sec.isPeer && sec.names target)).flatMap fun sec =>
      sec.lines.filter isCode := by
  have hfold : ∀ (secs : List Section) (out : List String),
    (secs.foldl (removeSection target) out).filter isCode =
      out.filter isCode ++
        (secs.filter fun sec => !(sec.isPeer && sec.names target)).flatMap fun sec =>
          sec.lines.filter isCode := by
    intro secs
    induction secs with
    | nil => simp
    | cons sec secs ih =>
      intro out
      rw [List.foldl_cons, ih, removeSection, List.filter_cons]
      cases hgone : sec.isPeer && sec.names target with
      | true => simp [filter_dropLead]
      | false => simp
  have hblank : ∀ l, isBlank l = true → isCode l = false := fun l hl => by simp [isCode, hl]
  have hout := filter_rdropWhile hblank ((sections conf).foldl (removeSection target) [])
  rw [hfold, List.filter_nil, List.nil_append] at hout
  rw [removePeerFromConf, flush_foldl, List.filter_append, ← hout]
  have hempty : isCode "" = false := by decide
  split
  · next hnil => rw [hnil]; simp [hempty]
  · simp [hempty]

/-! From the lines to the sections. -/

/-- Sections left of a conf are read as sections. -/
theorem sections_filter {q : Section → Bool} (h : ∀ sec, sec.isPeer = false → q sec = true)
    (conf : List String) :
    sections (((sections conf).filter q).flatMap Section.lines) = (sections conf).filter q := by
  obtain ⟨first, rest, heq, hfirst, hrest⟩ := sections_cons conf
  have hq : q first = true := h first (by rw [Section.isPeer, hfirst]; rfl)
  rw [heq, List.filter_cons_of_pos hq]
  exact sections_flatMap hfirst fun sec hsec => hrest sec (List.mem_filter.mp hsec).1

theorem foldl_addPeer_erase (secs : List Section) (peers : Table String (List String)) :
    (secs.filter (!·.isPeerOf target)).foldl addPeer (peers.erase target) =
    (secs.foldl addPeer peers).erase target := by
  induction secs generalizing peers with
  | nil => rfl
  | cons sec secs ih =>
    rw [List.foldl_cons, ← ih, List.filter_cons]
    cases hpk : sec.peerKey with
    | none =>
      rw [addPeer_of_none hpk]
      split
      · rw [List.foldl_cons, addPeer_of_none hpk]
      · rfl
    | some key =>
      obtain ⟨hpeer, hkey, -⟩ := Section.peerKey_eq_some.mp hpk
      rw [addPeer_of_some hpk]
      by_cases he : key = target
      · subst he
        rw [if_neg (by simp [Section.isPeerOf, hpeer, hkey]), Table.erase_set_self]
      · rw [if_pos (by simp [Section.isPeerOf, hkey, he]), List.foldl_cons, addPeer_of_some hpk,
          Table.erase_set_of_ne he]

/-- The lines that count decide the rest. -/
theorem removesExactly_of_lines (h : out.filter isCode =
    ((sections conf).filter (!·.isPeerOf target)).flatMap fun sec => sec.lines.filter isCode) :
    RemovesExactly target conf out := by
  have hkept : ∀ sec : Section, sec.isPeer = false → (!sec.isPeerOf target) = true :=
    fun sec hsec => by
    simp [Section.isPeerOf, hsec]
  have hsame : out.filter isCode =
      (((sections conf).filter (!·.isPeerOf target)).flatMap Section.lines).filter isCode := by
    rw [h, List.filter_flatMap]
  have hsecs : (sections out).map Section.strip = ((sections conf).filter (!·.isPeerOf target)).map
      Section.strip := by
    rw [← sections_filter_isCode, hsame, sections_filter_isCode, sections_filter hkept]
  refine ⟨h, ?_, ?_⟩
  · rw [← parsePeersFromConf_filter_isCode, hsame, parsePeersFromConf_filter_isCode,
      parsePeersFromConf_eq,
      sections_filter hkept, parsePeersFromConf_eq, ← foldl_addPeer_erase]
    rfl
  · have hstrip : ∀ secs : List Section, (secs.filter (!·.isPeer)).map Section.strip =
        (secs.map Section.strip).filter (!·.isPeer) := fun secs => by rw [List.filter_map]; rfl
    rw [hstrip, hsecs, ← hstrip, List.filter_filter]
    refine congrArg _ (List.filter_congr fun sec _ => ?_)
    cases hpeer : sec.isPeer with
    | true => simp
    | false => simp [hkept sec hpeer]

theorem flatMap_filter_inj {α β : Type*} {f : α → List β} {p q : α → Bool} {xs : List α}
    (hpq : ∀ a, p a = true → q a = true)
    (hne : ∀ a, p a = false → q a = true → f a ≠ [])
    (h : (xs.filter p).flatMap f = (xs.filter q).flatMap f) :
    ∀ a ∈ xs, q a = true → p a = true := by
  have hle : ∀ xs : List α,
      ((xs.filter p).flatMap f).length ≤ ((xs.filter q).flatMap f).length := by
    intro xs
    induction xs with
    | nil => exact Nat.le_refl _
    | cons a xs ih =>
      cases hp : p a with
      | true => simpa [hp, hpq a hp] using ih
      | false =>
        cases hq : q a with
        | true =>
          rw [List.filter_cons_of_neg (by simp [hp]), List.filter_cons_of_pos hq, List.flatMap_cons,
            List.length_append]
          omega
        | false => simpa [hp, hq] using ih
  induction xs with
  | nil => exact nofun
  | cons a xs ih =>
    cases hp : p a with
    | true =>
      rw [List.filter_cons_of_pos hp, List.filter_cons_of_pos (hpq a hp), List.flatMap_cons,
        List.flatMap_cons] at h
      intro b hb hqb
      rcases List.mem_cons.mp hb with rfl | hb
      · exact hp
      · exact ih (List.append_cancel_left h) b hb hqb
    | false =>
      rw [List.filter_cons_of_neg (by simp [hp])] at h
      cases hq : q a with
      | true =>
        rw [List.filter_cons_of_pos hq, List.flatMap_cons] at h
        have hlen := congrArg List.length h
        have hpos := List.length_pos_iff.mpr (hne a hp hq)
        have hrest := hle xs
        rw [List.length_append] at hlen
        omega
      | false =>
        rw [List.filter_cons_of_neg (by simp [hq])] at h
        intro b hb hqb
        rcases List.mem_cons.mp hb with rfl | hb
        · rw [hq] at hqb
          cases hqb
        · exact ih h b hb hqb

/-- A removal takes exactly the peer with the key, unless some peer names the key and goes by
another. -/
theorem removePeerFromConf_iff (conf : List String) (target : String) :
    RemovesExactly target conf (removePeerFromConf conf target) ↔ NamedLast target conf := by
  have hnames : ∀ sec : Section, (!(sec.isPeer && sec.names target)) = true →
      (!sec.isPeerOf target) = true := by
    intro sec hsec
    rw [Bool.not_eq_true', Bool.eq_false_iff] at hsec ⊢
    intro hof
    obtain ⟨hpeer, hkey⟩ := Bool.and_eq_true_iff.mp hof
    exact hsec (by rw [hpeer, names_of_publicKey (of_decide_eq_true hkey)]; rfl)
  constructor
  · intro h sec hsec hpeer hnamed
    by_contra hkey
    have hcount : ∀ sec : Section, (!(sec.isPeer && sec.names target)) = false →
      (!sec.isPeerOf target) = true →
        sec.lines.filter isCode ≠ [] := by
      intro sec hgone _
      obtain ⟨hpeer, -⟩ := Bool.and_eq_true_iff.mp (by simpa using hgone)
      obtain ⟨head, hheader, hhead⟩ := Section.exists_header hpeer
      refine List.ne_nil_of_mem
        (List.mem_filter.mpr ⟨?_, isCode_of_header (isHeader_of_isPeerHeader hhead)⟩)
      rw [Section.lines, hheader]
      exact List.mem_cons_self
    have hall :=
      flatMap_filter_inj hnames hcount ((filter_removePeerFromConf conf target).symm.trans h.lines)
        sec hsec
      (by simp [Section.isPeerOf, hkey])
    simp [hpeer, hnamed] at hall
  · intro h
    refine removesExactly_of_lines ?_
    rw [filter_removePeerFromConf]
    refine congrArg (List.flatMap _) (List.filter_congr fun sec hsec => ?_)
    rw [Bool.eq_iff_iff]
    refine ⟨hnames sec, fun hkept => ?_⟩
    rw [Bool.not_eq_true', Bool.eq_false_iff] at hkept ⊢
    intro hgone
    obtain ⟨hpeer, hnamed⟩ := Bool.and_eq_true_iff.mp hgone
    exact hkept (by simp [Section.isPeerOf, hpeer, h sec hsec hpeer hnamed])

/-- A peer whose first key was replaced below it. -/
def rekeyedConf : List String :=
  ["[Interface]", "Address = 10.10.0.1/24", "", "[Peer]", "PublicKey = kA=", "PublicKey = kB=",
    "AllowedIPs = 10.10.0.2/32"]

/-- It is known by its second key, and goes when a peer with the first is removed. -/
theorem removal_takes_another_peer :
    (parsePeersFromConf rekeyedConf).get? "kB=" = some ["10.10.0.2/32"] ∧
      (parsePeersFromConf (removePeerFromConf rekeyedConf "kA=")).get? "kB=" = none ∧
      ¬ RemovesExactly "kA=" rekeyedConf (removePeerFromConf rekeyedConf "kA=") := by
  have hbefore : (parsePeersFromConf rekeyedConf).get? "kB=" = some ["10.10.0.2/32"] := by
    decide +kernel
  have hafter : (parsePeersFromConf (removePeerFromConf rekeyedConf "kA=")).get? "kB=" = none := by
    decide +kernel
  refine ⟨hbefore, hafter, fun h => ?_⟩
  rw [h.parsed, Table.get?_erase, if_neg (by decide), hbefore] at hafter
  cases hafter

end FloppyGuard.WireGuard
