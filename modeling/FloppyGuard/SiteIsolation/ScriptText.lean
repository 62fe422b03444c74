import FloppyGuard.SiteIsolation.Enforcement

/-! The text of an emitted script determines the table. -/
namespace FloppyGuard.SiteIsolation

variable {rt : Runtime} {pairs : List Pair} {links : List Link} {ln ln' : NftLine} {s t : Script}
  {u v : List String}

def isHexText (s : String) : Bool := s.toList.all fun c => "0123456789abcdef".toList.contains c

/-- Digests are hexadecimal text, as SHA-256 prints them. -/
def HexDigests (rt : Runtime) : Prop := ∀ s, isHexText (rt.sha256Hex s) = true

theorem HexDigests.mem (hx : HexDigests rt) {text : String} {c : Char}
    (h : c ∈ (rt.sha256Hex text).toList) :
    c ∈ "0123456789abcdef".toList := by
  simpa using List.all_eq_true.mp (hx text) c h

/-- Lines whose parts can be read off their text: names are words, nothing breaks
the line, and no other line looks like a set or a rule. -/
def NftLine.Plain : NftLine → Prop
  | raw text =>
    '\n' ∉ text.toList ∧ ¬ ['\t', 's'] <+: text.toList ∧ ¬ ['\t', '\t', 'i'] <+: text.toList
  | set name comment _ => ' ' ∉ name.toList ∧ '\n' ∉ name.toList ∧ '\n' ∉ comment.toList
  | drop X Y comment => (' ' ∉ X.toList ∧ ' ' ∉ Y.toList) ∧
      '\n' ∉ X.toList ∧ '\n' ∉ Y.toList ∧ '\n' ∉ comment.toList

theorem toList_elements (els : List Cidr) : (", ".intercalate (els.map Cidr.render)).toList =
    [',', ' '].intercalate (els.map Cidr.toText) := by
  rw [String.toList_intercalate, List.map_map]
  congr 1
  exact List.map_congr_left fun b _ => String.toList_ofList

theorem toText_injective : Function.Injective Cidr.toText := fun _ _ h =>
  render_injective (congrArg String.ofList h)

theorem toText_ne_nil (b : Cidr) : b.toText ≠ [] := by
  simp [Cidr.toText]

theorem elements_ne_nil (b : Cidr) (els : List Cidr) :
    [',', ' '].intercalate ((b :: els).map Cidr.toText) ≠ [] := by
  cases els with
  | nil => simpa using toText_ne_nil b
  | cons c els => simp [List.intercalate_cons_cons]

theorem elements_inj {els els' : List Cidr}
    (h : [',', ' '].intercalate (els.map Cidr.toText) = [',', ' '].intercalate
      (els'.map Cidr.toText)) :
    els = els' := by
  have hcomma (l : List Cidr) : ∀ r ∈ l.map Cidr.toText, ',' ∉ r := by
    intro r hr hc
    obtain ⟨b, -, rfl⟩ := List.mem_map.mp hr
    rcases mem_toText hc with h | h | h <;> simp at h
  cases els with
  | nil =>
    cases els' with
    | nil => rfl
    | cons b els' => exact absurd h.symm (elements_ne_nil b els')
  | cons a els =>
    cases els' with
    | nil => exact absurd h (elements_ne_nil a els)
    | cons b els' =>
      exact toText_injective.list_map (Text.join_inj (hcomma _) (hcomma _) (by simp) (by simp) h)

theorem set_name_inj {a b : String} (ha : ' ' ∉ a.toList) (hb : ' ' ∉ b.toList)
    (h : "\tset " ++ a ++ " \x7b" = "\tset " ++ b ++ " \x7b") : a = b := by
  have h := congrArg String.toList h
  simp only [String.toList_append] at h
  rw [List.append_assoc, List.append_assoc] at h
  exact String.toList_inj.mp (Text.cut_inj ha hb (List.append_cancel_left h)).1

theorem quoted_inj {p a b q : String} (h : p ++ a ++ q = p ++ b ++ q) : a = b := by
  have h := congrArg String.toList h
  simp only [String.toList_append] at h
  exact String.toList_inj.mp (List.append_cancel_left (List.append_cancel_right h))

theorem drop_text_inj {X Y c X' Y' c' : String} (hX : ' ' ∉ X.toList) (hX' : ' ' ∉ X'.toList)
    (hY : ' ' ∉ Y.toList) (hY' : ' ' ∉ Y'.toList)
    (h : (NftLine.drop X Y c).render = (NftLine.drop X' Y' c').render) :
    X = X' ∧ Y = Y' ∧ c = c' := by
  simp only [NftLine.render, List.cons.injEq, and_true] at h
  have h := congrArg String.toList h
  simp only [String.toList_append, List.append_assoc] at h
  obtain ⟨hx, h⟩ := Text.cut_inj hX hX' (List.append_cancel_left h)
  have hd : "ip daddr @".toList ++
    (Y.toList ++ (" counter drop comment \"".toList ++ (c.toList ++ "\"".toList))) =
      "ip daddr @".toList ++
        (Y'.toList ++ (" counter drop comment \"".toList ++ (c'.toList ++ "\"".toList))) := h
  obtain ⟨hy, h⟩ := Text.cut_inj hY hY' (List.append_cancel_left hd)
  have hc : "counter drop comment \"".toList ++ (c.toList ++ "\"".toList) =
      "counter drop comment \"".toList ++ (c'.toList ++ "\"".toList) := h
  exact ⟨String.toList_inj.mp hx, String.toList_inj.mp hy,
    String.toList_inj.mp (List.append_cancel_right (List.append_cancel_left hc))⟩

/-- The first line shows which kind of line was printed. -/
theorem raw_ne_set {text n c : String} {els : List Cidr} (h : (NftLine.raw text).Plain) :
    (NftLine.raw text).render ++ u ≠ (NftLine.set n c els).render ++ v := by
  intro he
  have hhead : text = "\tset " ++ n ++ " \x7b" := (List.cons.inj he).1
  refine h.2.1 ?_
  rw [hhead, String.toList_append, String.toList_append, List.append_assoc]
  exact ⟨_, rfl⟩

theorem raw_ne_drop {text X Y c : String} (h : (NftLine.raw text).Plain) :
    (NftLine.raw text).render ++ u ≠ (NftLine.drop X Y c).render ++ v := by
  intro he
  have hhead := (List.cons.inj he).1
  refine h.2.2 ?_
  rw [hhead]
  simp only [String.toList_append, List.append_assoc]
  exact ⟨_, rfl⟩

theorem set_ne_drop {n c X Y c' : String} {els : List Cidr} :
    (NftLine.set n c els).render ++ u ≠ (NftLine.drop X Y c').render ++ v := by
  intro he
  have h := congrArg String.toList (List.cons.inj he).1
  simp only [String.toList_append, List.append_assoc] at h
  exact absurd (Option.some.inj (congrArg (fun l => l[1]?) h)) (by decide)

/-- Printed lines are read back one at a time. -/
theorem render_append_inj (h : ln.Plain) (h' : ln'.Plain) (he : ln.render ++ u = ln'.render ++ v) :
    ln = ln' ∧ u = v := by
  cases ln with
  | raw text =>
    cases ln' with
    | raw text' =>
      obtain ⟨rfl, hr⟩ := List.cons.inj he
      exact ⟨rfl, hr⟩
    | set n c els => exact absurd he (raw_ne_set h)
    | drop X Y c => exact absurd he (raw_ne_drop h)
  | set n c els =>
    cases ln' with
    | raw text' => exact absurd he.symm (raw_ne_set h')
    | set n' c' els' =>
      simp only [NftLine.render, List.cons_append, List.nil_append, List.cons.injEq, true_and] at he
      obtain ⟨hn, hc, hels, hr⟩ := he
      have hjoin := congrArg String.toList (quoted_inj hels)
      rw [toList_elements, toList_elements] at hjoin
      exact ⟨by rw [set_name_inj h.1 h'.1 hn, quoted_inj hc, elements_inj hjoin], hr⟩
    | drop X Y c => exact absurd he set_ne_drop
  | drop X Y c =>
    cases ln' with
    | raw text' => exact absurd he.symm (raw_ne_drop h')
    | set n' c' els' => exact absurd he.symm set_ne_drop
    | drop X' Y' c' =>
      obtain ⟨hl, hr⟩ := List.append_inj he rfl
      obtain ⟨rfl, rfl, rfl⟩ := drop_text_inj h.1.1 h'.1.1 h.1.2 h'.1.2 hl
      exact ⟨rfl, hr⟩

theorem lines_inj (hs : ∀ ln ∈ s, ln.Plain) (ht : ∀ ln ∈ t, ln.Plain)
    (h : s.flatMap NftLine.render = t.flatMap NftLine.render) : s = t := by
  have hne (ln : NftLine) (r : List String) : ln.render ++ r ≠ [] := by
    cases ln <;> simp [NftLine.render]
  induction s generalizing t with
  | nil =>
    cases t with
    | nil => rfl
    | cons b t => exact absurd h.symm (hne b _)
  | cons a s ih =>
    cases t with
    | nil => exact absurd h (hne a _)
    | cons b t =>
      simp only [List.flatMap_cons] at h
      obtain ⟨rfl, hr⟩ := render_append_inj (hs a (by simp)) (ht b (by simp)) h
      rw [ih (fun ln hln => hs ln (by simp [hln])) (fun ln hln => ht ln (by simp [hln])) hr]

theorem newline_not_mem_render (h : ln.Plain) : ∀ r ∈ ln.render, '\n' ∉ r.toList := by
  have hels (els : List Cidr) : '\n' ∉ (", ".intercalate (els.map Cidr.render)).toList := by
    rw [toList_elements]
    intro hc
    rcases Text.mem_of_mem_intercalate hc with hc | ⟨l, hl, hc⟩
    · simp at hc
    · obtain ⟨b, -, rfl⟩ := List.mem_map.mp hl
      rcases mem_toText hc with h | h | h <;> simp at h
  cases ln with
  | raw text => simpa [NftLine.render] using h.1
  | set n c els =>
    intro r hr
    simp only [NftLine.render, List.mem_cons, List.not_mem_nil, or_false] at hr
    rcases hr with rfl | rfl | rfl | rfl | rfl | rfl
    · simp [h.2.1]
    · decide
    · decide
    · simp [h.2.2]
    · rw [String.toList_append, String.toList_append, List.mem_append, List.mem_append, not_or,
        not_or]
      exact ⟨⟨by decide, hels els⟩, by decide⟩
    · decide
  | drop X Y c => simp [NftLine.render, h.2.1, h.2.2.1, h.2.2.2]

/-- Scripts of plain lines with one text are one script. -/
theorem Script.text_inj (hs : ∀ ln ∈ s, ln.Plain) (ht : ∀ ln ∈ t, ln.Plain) (hs0 : s ≠ [])
    (ht0 : t ≠ [])
    (h : s.text = t.text) : s = t := by
  have hne {s : Script} (hs0 : s ≠ []) : (s.flatMap NftLine.render).map String.toList ≠ [] := by
    obtain ⟨ln, s, rfl⟩ := List.exists_cons_of_ne_nil hs0
    cases ln <;> simp [NftLine.render]
  have hline {s : Script} (hs : ∀ ln ∈ s, ln.Plain) :
      ∀ r ∈ (s.flatMap NftLine.render).map String.toList, '\n' ∉ r := by
    intro r hr
    obtain ⟨text, htext, rfl⟩ := List.mem_map.mp hr
    obtain ⟨ln, hln, hr⟩ := List.mem_flatMap.mp htext
    exact newline_not_mem_render (hs ln hln) text hr
  have htext := congrArg String.toList h
  rw [Script.text, Script.text, String.toList_intercalate, String.toList_intercalate] at htext
  have hlines := Text.join_inj (hline hs) (hline ht) (hne hs0) (hne ht0) htext
  exact lines_inj hs ht ((List.map_injective_iff.mpr fun _ _ => String.toList_inj.mp) hlines)

theorem newline_not_mem_comment (value : String) (max : ℕ) :
    '\n' ∉ (sanitizeCommentText rt value max).toList := by
  unfold sanitizeCommentText orElse
  dsimp only
  split
  · decide
  · rw [String.toList_ofList]
    intro hc
    rcases Text.mem_slice (Text.mem_of_mem_trim hc) with hc | hc
    · obtain ⟨c, -, hc⟩ := List.mem_map.mp (Text.mem_of_mem_collapse (Text.mem_of_mem_trim hc))
      split at hc
      · subst hc
        exact absurd ‹_› (by decide)
      · exact absurd hc (by decide)
    · exact absurd hc (by decide)

theorem mem_siteSetName (hx : HexDigests rt) {id : String} {c : Char}
    (h : c ∈ (siteSetName rt id).toList) :
    c ∈ "site_0123456789abcdef".toList := by
  rw [siteSetName, String.toList_append] at h
  rw [show "site_0123456789abcdef" = "site_" ++ "0123456789abcdef" from rfl, String.toList_append]
  rcases List.mem_append.mp h with h | h
  · exact List.mem_append_left _ h
  · have hunits : ∀ d ∈ "0123456789abcdef".toList, Text.unitLength d = 1 := by decide
    rw [String.toList_ofList, Text.slice_eq_take fun d hd => hunits d (hx.mem hd)] at h
    exact List.mem_append_right _ (hx.mem (List.mem_of_mem_take h))

theorem siteSetName_plain (hx : HexDigests rt) (id : String) :
    ' ' ∉ (siteSetName rt id).toList ∧ '\n' ∉ (siteSetName rt id).toList :=
  ⟨fun h => absurd (mem_siteSetName hx h) (by decide),
    fun h => absurd (mem_siteSetName hx h) (by decide)⟩

theorem site_set {A : Site} (hA : A ∈ (planSiteIsolation rt pairs links).sites) :
    A.set = siteSetName rt A.id := by
  obtain ⟨l, -, he⟩ := (planned_plan rt pairs links).sites A hA
  rw [he]
  rfl

theorem raw_mem_script {text : String} (h : buildSiteIsolationNft rt pairs links = .ok s)
    (hm : NftLine.raw text ∈ s) : text ∈
      ["#!/usr/sbin/nft -f",
        "# Managed by FloppyGuard - Standorte untereinander (site isolation). Do not edit:",
        "# the backend replaces this table atomically on every change.",
        "table inet floppyguard_sites \x7b\x7d", "delete table inet floppyguard_sites",
        "table inet floppyguard_sites \x7b", "\tchain forward \x7b",
        "\t\ttype filter hook forward priority filter - 10; policy accept;", "\t\x7d", "\x7d",
        ""] := by
  have hp (p : Pair) : NftLine.raw text ∉ pairLines rt (planSiteIsolation rt pairs links) p := by
    unfold pairLines
    split <;> simp [dropLine]
  unfold buildSiteIsolationNft at h
  dsimp only at h
  split at h
  · cases h
  · obtain rfl := Except.ok.inj h
    simpa [hp, setLine, or_assoc] using hm

theorem built_ne_nil (h : buildSiteIsolationNft rt pairs links = .ok s) : s ≠ [] := by
  unfold buildSiteIsolationNft at h
  dsimp only at h
  split at h
  · cases h
  · obtain rfl := Except.ok.inj h
    simp

/-- Every emitted line is plain. -/
theorem built_plain (hx : HexDigests rt) (h : buildSiteIsolationNft rt pairs links = .ok s) :
    ∀ ln ∈ s, ln.Plain := by
  have hset {A : Site} (hA : A ∈ (planSiteIsolation rt pairs links).sites) :
      ' ' ∉ A.set.toList ∧ '\n' ∉ A.set.toList := site_set hA ▸ siteSetName_plain hx A.id
  intro ln hln
  cases ln with
  | set n c els =>
    obtain ⟨A, hA, he⟩ := (set_mem_script h).mp hln
    simp only [setLine, NftLine.set.injEq] at he
    obtain ⟨rfl, rfl, rfl⟩ := he
    exact ⟨(hset hA).1, (hset hA).2, newline_not_mem_comment _ _⟩
  | drop X Y c =>
    obtain ⟨p, -, hp⟩ := (drop_mem_script h).mp hln
    unfold pairLines at hp
    split at hp
    · rename_i A B hA hB
      have hA := hset (List.mem_of_find?_eq_some hA)
      have hB := hset (List.mem_of_find?_eq_some hB)
      simp only [dropLine, List.mem_cons, NftLine.drop.injEq, List.not_mem_nil, or_false] at hp
      rcases hp with ⟨rfl, rfl, rfl⟩ | ⟨rfl, rfl, rfl⟩
      · exact ⟨⟨hA.1, hB.1⟩, hA.2, hB.2, newline_not_mem_comment _ _⟩
      · exact ⟨⟨hB.1, hA.1⟩, hB.2, hA.2, newline_not_mem_comment _ _⟩
    · cases hp
  | raw text =>
    have hraw := raw_mem_script h hln
    simp only [List.mem_cons, List.not_mem_nil, or_false] at hraw
    rcases hraw with rfl | rfl | rfl | rfl | rfl | rfl | rfl | rfl | rfl | rfl | rfl <;>
      exact ⟨by decide, by decide, by decide⟩

/-- The text of an emitted script determines it. -/
theorem built_text_inj {pairs' : List Pair} {links' : List Link} (hx : HexDigests rt)
    (hs : buildSiteIsolationNft rt pairs links = .ok s)
    (ht : buildSiteIsolationNft rt pairs' links' = .ok t) (h : s.text = t.text) : s = t :=
  Script.text_inj (built_plain hx hs) (built_plain hx ht) (built_ne_nil hs) (built_ne_nil ht) h

end FloppyGuard.SiteIsolation
