import FloppyGuard.Lib.Text

/-! The words of a text between runs of separators. -/
namespace Text

variable {α : Type*} {sep : α → Bool} {s t w glue : List α} {ws : List (List α)} {c : α}

def words (sep : α → Bool) (s : List α) : List (List α) := (s.splitOnP sep).filter (· ≠ [])

@[simp] theorem words_nil : words sep [] = [] := rfl

theorem words_append_cons (hc : sep c = true) :
    words sep (s ++ c :: t) = words sep s ++ words sep t := by
  rw [words, List.splitOnP_append_cons s t hc, List.filter_append]
  rfl

theorem words_cons (hc : sep c = true) : words sep (c :: s) = words sep s :=
  words_append_cons (s := []) hc

theorem words_append_of_seps (hs : ∀ c ∈ s, sep c = true) : words sep (s ++ t) = words sep t := by
  induction s with
  | nil => rfl
  | cons c s ih =>
    rw [List.cons_append, words_cons (hs c List.mem_cons_self), ih fun d hd =>
      hs d (List.mem_cons_of_mem c hd)]

theorem words_of_seps (hs : ∀ c ∈ s, sep c = true) : words sep s = [] := by
  have h := words_append_of_seps (t := []) hs
  rwa [List.append_nil, words_nil] at h

/-- Words of two texts with separators between. -/
theorem words_join (hne : glue ≠ []) (hglue : ∀ c ∈ glue, sep c = true) :
    words sep (s ++ glue ++ t) = words sep s ++ words sep t := by
  obtain ⟨c, glue, rfl⟩ := List.exists_cons_of_ne_nil hne
  rw [List.append_assoc, List.cons_append, words_append_cons (hglue c List.mem_cons_self),
    words_append_of_seps fun d hd => hglue d (List.mem_cons_of_mem c hd)]

theorem words_append_seps (ht : ∀ c ∈ t, sep c = true) : words sep (s ++ t) = words sep s := by
  cases t with
  | nil => rw [List.append_nil]
  | cons c t =>
    rw [words_append_cons (ht c List.mem_cons_self), words_of_seps fun d hd =>
      ht d (List.mem_cons_of_mem c hd), List.append_nil]

theorem words_word (hne : w ≠ []) (hw : ∀ c ∈ w, sep c = false) : words sep w = [w] := by
  rw [words, List.splitOnP_eq_singleton hw]
  simp [hne]

theorem words_intercalate (hne : glue ≠ []) (hglue : ∀ c ∈ glue, sep c = true)
    (hws : ∀ w ∈ ws, w ≠ [] ∧ ∀ c ∈ w, sep c = false) : words sep (glue.intercalate ws) = ws := by
  induction ws with
  | nil => rfl
  | cons w ws ih =>
    obtain ⟨hw, hclean⟩ := hws w List.mem_cons_self
    cases ws with
    | nil => simpa [List.intercalate] using words_word hw hclean
    | cons v ws =>
      have hrest := ih fun u hu => hws u (List.mem_cons_of_mem w hu)
      have hjoin : glue.intercalate (w :: v :: ws) = w ++ glue ++ glue.intercalate (v :: ws) := by
        simp [List.intercalate]
      rw [hjoin, words_join hne hglue, words_word hw hclean, hrest]
      rfl

theorem clean_of_mem_splitOnP (h : w ∈ s.splitOnP sep) : ∀ c ∈ w, sep c = false := by
  induction s generalizing w with
  | nil =>
    obtain rfl : w = [] := by simpa using h
    simp
  | cons d s ih =>
    obtain ⟨p, ps, hparts⟩ := List.exists_cons_of_ne_nil (List.splitOnP_ne_nil sep s)
    rw [List.splitOnP_cons_eq_if_modifyHead, hparts] at h
    rw [hparts] at ih
    split at h
    · rcases List.mem_cons.mp h with rfl | h
      · simp
      · exact ih h
    · next hd =>
      rcases List.mem_cons.mp h with rfl | h
      · simpa [hd] using ih List.mem_cons_self
      · exact ih (List.mem_cons_of_mem p h)

/-- A word is not empty and has no separator. -/
theorem of_mem_words (h : w ∈ words sep s) : w ≠ [] ∧ ∀ c ∈ w, sep c = false := by
  obtain ⟨hmem, hne⟩ := List.mem_filter.mp h
  exact ⟨by simpa using hne, clean_of_mem_splitOnP hmem⟩

theorem words_eq_nil_iff : words sep s = [] ↔ ∀ c ∈ s, sep c = true := by
  refine ⟨fun h => ?_, words_of_seps⟩
  induction s with
  | nil => simp
  | cons d s ih =>
    by_cases hd : sep d = true
    · rw [words_cons hd] at h
      simpa [hd] using ih h
    · obtain ⟨p, ps, hparts⟩ := List.exists_cons_of_ne_nil (List.splitOnP_ne_nil sep s)
      rw [words, List.splitOnP_cons_eq_if_modifyHead, if_neg hd, hparts] at h
      cases h

end Text
