import FloppyGuard.Lib.Text
import Mathlib.Logic.Function.Basic

/-! A file of `KEY="value"` lines: what a shell that sources it gets, and what `sed`, `re.sub` and
`>>` make of it. -/
namespace EnvFile

open Text

abbrev Line := List Char

abbrev Env := List Char → Option (List Char)

/-- Stands for itself between double quotes. -/
def isLiteral (c : Char) : Bool := c != '"' && c != '$' && c != '\\' && c != '\n' && c.toNat != 0x60

def isNameChar (c : Char) : Bool := c.isAlphanum || c == '_'

def isName (k : List Char) : Bool := k.all isNameChar && k.head?.any fun c => !c.isDigit

def unquote : List Char → Option (List Char)
  | '"' :: s => if s.getLast? = some '"' ∧ s.dropLast.all isLiteral then some s.dropLast else none
  | s => if s.all Char.isAlphanum then some s else none

/-- The assignment a line is. `none`: the shell would do something else with it, or expand something
in it. -/
def assignment (l : Line) : Option (List Char × List Char) :=
  match l.dropWhile isNameChar with
  | '=' :: s =>
    if isName (l.takeWhile isNameChar) then (unquote s).map (l.takeWhile isNameChar, ·) else none
  | _ => none

/-- The variables behind `source`: the last assignment counts. -/
def source (file : List Line) : Option Env :=
  (file.mapM assignment).map fun as k => as.reverse.lookup k

def start (key : List Char) : List Char := key ++ ['=']

def entry (key value : List Char) : Line := start key ++ '"' :: value ++ ['"']

/-! Writers. -/

/-- The replacement of an `s` command up to the delimiter that ends the script; `none` is what was
matched. Other escapes, and flags behind the delimiter, are left out. -/
def replacement (delim : Char) : List Char → Option (List (Option Char))
  | [] => none
  | '\\' :: c :: s =>
    if c = delim ∨ c = '&' ∨ c = '\\' then (some c :: ·) <$> replacement delim s else none
  | c :: s =>
    if c = delim then if s = [] then some [] else none
    else if c = '\n' ∨ c = '\\' then none
    else if c = '&' then (none :: ·) <$> replacement delim s
    else (some c :: ·) <$> replacement delim s

def expand (matched : Line) (r : List (Option Char)) : Line :=
  r.flatMap fun
    | none => matched
    | some c => [c]

/-- `sed -i "s|^KEY=.*|KEY=\"VALUE\"|"` -/
def sed (key value : List Char) (file : List Line) : Option (List Line) :=
  (replacement '|' (entry key value ++ ['|'])).map fun r =>
    file.map fun l => if (start key).isPrefixOf l then expand l r else l

/-- `re.sub(r"^KEY=.*$", lambda m: 'KEY="VALUE"', .., count=1, flags=re.M)` -/
def subFirst (key value : List Char) : List Line → List Line
  | [] => []
  | l :: file =>
    if (start key).isPrefixOf l then entry key value :: file else l :: subFirst key value file

/-- `printf '%s="%s"\n' KEY VALUE >> file` -/
def append (key value : List Char) (file : List Line) : List Line :=
  file ++ (entry key value).splitOn '\n'

/-- `sed -n 's/^KEY="\([..]*\)"$/\1/p' | head -1` -/
def firstQuoted (p : Char → Bool) (key : List Char) (file : List Line) : Option (List Char) :=
  file.findSome? fun l =>
    let s := l.drop (key.length + 2)
    if (start key ++ ['"']).isPrefixOf l ∧ s.getLast? = some '"' ∧ s.dropLast.all p then
      some s.dropLast else none

/-! Files that hold assignments and nothing else. -/

structure Entry where
  key : List Char
  value : List Char
  quoted : Bool
  key_ok : isName key = true
  value_ok : value.all (if quoted then isLiteral else Char.isAlphanum) = true

def Entry.text (e : Entry) : Line :=
  start e.key ++ if e.quoted then '"' :: e.value ++ ['"'] else e.value

def env (es : List Entry) : Env := fun k => (es.find? fun e => e.key = k).map Entry.value

def keys (es : List Entry) : List (List Char) := es.map Entry.key

def Entry.set (k : List Char) (e new : Entry) : Entry := if e.key = k then new else e

variable {es : List Entry} {e new : Entry} {file : List Line} {k v : List Char}

theorem isNameChar_eq : isNameChar '=' = false := rfl

theorem takeWhile_text (e : Entry) : e.text.takeWhile isNameChar = e.key := by
  have hall := (Bool.and_eq_true_iff.mp e.key_ok).1
  rw [Entry.text, start, List.append_assoc, List.takeWhile_append_of_pos (List.all_eq_true.mp hall)]
  simp [isNameChar_eq]

theorem dropWhile_text (e : Entry) :
    e.text.dropWhile isNameChar = '=' :: if e.quoted then '"' :: e.value ++ ['"'] else e.value := by
  have hall := (Bool.and_eq_true_iff.mp e.key_ok).1
  rw [Entry.text, start, List.append_assoc, List.dropWhile_append_of_pos (List.all_eq_true.mp hall)]
  simp [isNameChar_eq]

theorem unquote_bare (h : v.all Char.isAlphanum = true) : unquote v = some v := by
  cases v with
  | nil => rfl
  | cons c v =>
    have hc : c ≠ '"' := by
      rintro rfl
      exact absurd (List.all_eq_true.mp h '"' List.mem_cons_self) (by decide)
    rw [unquote.eq_2 _ (fun s hs => hc (List.cons.inj hs).1)]
    exact if_pos h

theorem assignment_text (e : Entry) : assignment e.text = some (e.key, e.value) := by
  have hvalue := e.value_ok
  rw [assignment, dropWhile_text, takeWhile_text]
  refine (if_pos e.key_ok).trans ?_
  cases hq : e.quoted with
  | true =>
    rw [hq] at hvalue
    have hall : e.value.all isLiteral = true := hvalue
    simp [unquote, hall]
  | false =>
    rw [hq] at hvalue
    have hbare : unquote e.value = some e.value := unquote_bare hvalue
    simp [hbare]

theorem mapM_assignment (es : List Entry) :
    (es.map Entry.text).mapM assignment = some (es.map fun e => (e.key, e.value)) := by
  induction es with
  | nil => rfl
  | cons e es ih => simp [assignment_text, ih]

theorem isPrefixOf_text (e : Entry) (hk : isName k = true) :
    (start k).isPrefixOf e.text = true ↔ e.key = k := by
  have hne : ∀ {w : List Char}, isName w = true → '=' ∉ w := by
    intro w hw hmem
    exact absurd (List.all_eq_true.mp (Bool.and_eq_true_iff.mp hw).1 '=' hmem) (by decide)
  rw [List.isPrefixOf_iff_prefix, Entry.text]
  constructor
  · rintro ⟨t, ht⟩
    rw [start, start, List.append_assoc, List.append_assoc] at ht
    exact (cut_inj (hne hk) (hne e.key_ok) ht).1.symm
  · rintro rfl
    exact ⟨_, rfl⟩

/-! What a file gives. -/

theorem env_cons : env (e :: es) k = if e.key = k then some e.value else env es k := by
  rw [env, List.find?_cons]
  by_cases he : e.key = k
  · simp [he]
  · simp [he, env]

theorem env_eq_none : env es k = none ↔ k ∉ keys es := by
  rw [env, Option.map_eq_none_iff, List.find?_eq_none, keys, List.mem_map]
  constructor
  · rintro h ⟨e, he, rfl⟩
    exact h e he (decide_eq_true rfl)
  · intro h e he hk
    exact h ⟨e, he, of_decide_eq_true hk⟩

/-- No key comes twice, so it does not matter that the last assignment counts. -/
theorem lookup_reverse (h : (keys es).Nodup) :
    (es.map fun e => (e.key, e.value)).reverse.lookup k = env es k := by
  induction es with
  | nil => rfl
  | cons e es ih =>
    obtain ⟨hnew, hrest⟩ := List.nodup_cons.mp h
    rw [List.map_cons, List.reverse_cons, List.lookup_append, ih hrest, env_cons]
    by_cases he : e.key = k
    · have hnone : env es k = none := env_eq_none.mpr (he ▸ hnew)
      simp [hnone, he]
    · have hne : (k == e.key) = false := beq_false_of_ne (Ne.symm he)
      simp [he, List.lookup_cons, List.lookup_nil, hne]

theorem env_eq_lookup : env es k = (es.map fun e => (e.key, e.value)).lookup k := by
  induction es with
  | nil => rfl
  | cons e es ih =>
    rw [env_cons, List.map_cons, List.lookup_cons, ih]
    by_cases he : e.key = k
    · simp [he]
    · simp [he, beq_false_of_ne (Ne.symm he)]

/-- A shell that reads the file makes its assignments and does nothing else. -/
theorem source_texts (h : (keys es).Nodup) : source (es.map Entry.text) = some (env es) := by
  rw [source, mapM_assignment, Option.map_some]
  exact congrArg some (funext fun k => lookup_reverse h)

theorem keys_set (h : new.key = k) : keys (es.map (·.set k new)) = keys es := by
  rw [keys, List.map_map]
  refine List.map_congr_left fun e _ => ?_
  rw [Function.comp, Entry.set]
  split
  · next he => rw [h, he]
  · rfl

theorem env_set_self (h : new.key = k) (hk : k ∈ keys es) :
    env (es.map (·.set k new)) k = some new.value := by
  induction es with
  | nil => cases hk
  | cons e es ih =>
    rw [List.map_cons, env_cons]
    by_cases he : e.key = k
    · rw [Entry.set, if_pos he, if_pos h]
    · rw [Entry.set, if_neg he, if_neg he]
      exact ih ((List.mem_cons.mp hk).resolve_left (Ne.symm he))

theorem env_set_of_ne (h : new.key = k) {j : List Char} (hj : j ≠ k) :
    env (es.map (·.set k new)) j = env es j := by
  induction es with
  | nil => rfl
  | cons e es ih =>
    rw [List.map_cons, env_cons, env_cons, ih, Entry.set]
    by_cases he : e.key = k
    · rw [if_pos he, h, he]
      simp [Ne.symm hj]
    · rw [if_neg he]

theorem env_set (h : new.key = k) (hk : k ∈ keys es) :
    env (es.map (·.set k new)) = Function.update (env es) k (some new.value) := by
  funext j
  by_cases hj : j = k
  · rw [hj, Function.update_self, env_set_self h hk]
  · rw [Function.update_of_ne hj, env_set_of_ne h hj]

theorem env_append (h : new.key = k) (hk : k ∉ keys es) :
    env (es ++ [new]) = Function.update (env es) k (some new.value) := by
  funext j
  rw [env, List.find?_append]
  by_cases hj : j = k
  · have hnone : es.find? (fun e => e.key = k) = none :=
      Option.map_eq_none_iff.mp (env_eq_none.mpr hk)
    rw [hj, hnone, Function.update_self]
    simp [h]
  · have hne : ¬ new.key = j := fun hnew => hj (hnew.symm.trans h)
    rw [Function.update_of_ne hj]
    simp [hne, env]

/-! What the writers do to such a file. -/

/-- No delimiter, and nothing else that means something to `sed` in a replacement. -/
def Verbatim (s : List Char) : Prop := ∀ c ∈ s, c ≠ '|' ∧ c ≠ '&' ∧ c ≠ '\\' ∧ c ≠ '\n'

theorem replacement_verbatim {s : List Char} (h : Verbatim s) :
    replacement '|' (s ++ ['|']) = some (s.map some) := by
  induction s with
  | nil => rfl
  | cons c s ih =>
    obtain ⟨hdelim, hmatch, hback, hnew⟩ := h c List.mem_cons_self
    rw [List.cons_append, replacement.eq_3 _ _ _ (fun d t hc => absurd hc hback), if_neg hdelim,
      if_neg (by simp [hback, hnew]), if_neg hmatch, ih fun d hd => h d (List.mem_cons_of_mem _ hd)]
    rfl

theorem expand_verbatim (matched s : List Char) : expand matched (s.map some) = s := by
  induction s with
  | nil => rfl
  | cons c s ih => exact congrArg (c :: ·) ih

theorem text_of_quoted (h : new.quoted = true) : new.text = entry new.key new.value := by
  simp [Entry.text, entry, h]

theorem sed_texts (h : new.quoted = true) (hv : Verbatim (entry new.key new.value)) :
    sed new.key new.value (es.map Entry.text) =
      some ((es.map (·.set new.key new)).map Entry.text) := by
  rw [sed, replacement_verbatim hv, Option.map_some, List.map_map, List.map_map]
  refine congrArg some (List.map_congr_left fun e _ => ?_)
  rw [Function.comp, Function.comp, Entry.set, expand_verbatim]
  by_cases he : e.key = new.key
  · rw [if_pos ((isPrefixOf_text e new.key_ok).mpr he), if_pos he, text_of_quoted h]
  · rw [if_neg fun hp => he ((isPrefixOf_text e new.key_ok).mp hp), if_neg he]

theorem subFirst_texts (h : new.quoted = true) (hnodup : (keys es).Nodup) :
    subFirst new.key new.value (es.map Entry.text) = (es.map (·.set new.key new)).map
      Entry.text := by
  induction es with
  | nil => rfl
  | cons e es ih =>
    obtain ⟨hnew, hrest⟩ := List.nodup_cons.mp hnodup
    rw [List.map_cons, List.map_cons, List.map_cons, subFirst, Entry.set]
    by_cases he : e.key = new.key
    · have hother : es.map (·.set new.key new) = es := by
        refine (List.map_congr_left fun d hd => ?_).trans (List.map_id es)
        have hne : d.key ≠ new.key := by
          rintro hd'
          exact hnew (List.mem_map.mpr ⟨d, hd, hd'.trans he.symm⟩)
        exact if_neg hne
      rw [if_pos ((isPrefixOf_text e new.key_ok).mpr he), if_pos he, text_of_quoted h, hother]
    · rw [if_neg fun hp => he ((isPrefixOf_text e new.key_ok).mp hp), if_neg he, ih hrest]

theorem append_texts (h : new.quoted = true) (hline : '\n' ∉ entry new.key new.value) :
    append new.key new.value (es.map Entry.text) = (es ++ [new]).map Entry.text := by
  have hone : (entry new.key new.value).splitOn '\n' = [entry new.key new.value] := by
    refine List.splitOnP_eq_singleton fun c hc => ?_
    exact beq_false_of_ne fun hnew => hline (hnew ▸ hc)
  rw [append, hone, List.map_append, List.map_singleton, text_of_quoted h]

theorem any_isPrefixOf_texts (hk : isName k = true) :
    (es.map Entry.text).any (start k).isPrefixOf = true ↔ k ∈ keys es := by
  simp only [List.any_map, List.any_eq_true, Function.comp, isPrefixOf_text _ hk, keys,
    List.mem_map]

/-- What `sed -n .. | head -1` reads is what the shell would read. -/
theorem firstQuoted_texts {p : Char → Bool} (hk : isName k = true)
    (hq : ∀ e ∈ es, e.key = k → e.quoted = true ∧ e.value.all p = true) :
    firstQuoted p k (es.map Entry.text) = env es k := by
  induction es with
  | nil => rfl
  | cons e es ih =>
    have hrest := ih fun d hd => hq d (List.mem_cons_of_mem _ hd)
    rw [firstQuoted] at hrest ⊢
    rw [List.map_cons, List.findSome?_cons, env_cons]
    by_cases he : e.key = k
    · obtain ⟨hquoted, hall⟩ := hq e List.mem_cons_self he
      have htext : e.text = start k ++ '"' :: e.value ++ ['"'] := by
        rw [text_of_quoted hquoted, he, entry]
      have hdrop : e.text.drop (k.length + 2) = e.value ++ ['"'] := by
        rw [htext, start]
        simp
      have hpre : (start k ++ ['"']).isPrefixOf e.text = true := by
        rw [List.isPrefixOf_iff_prefix, htext]
        exact ⟨e.value ++ ['"'], by simp⟩
      simp [hdrop, hpre, hall, he]
    · have hpre : (start k ++ ['"']).isPrefixOf e.text = false := by
        refine Bool.eq_false_iff.mpr fun hp => he ((isPrefixOf_text e hk).mp ?_)
        exact List.isPrefixOf_iff_prefix.mpr
          ((List.prefix_append _ _).trans (List.isPrefixOf_iff_prefix.mp hp))
      simp only [hpre, Bool.false_eq_true, false_and, if_false, if_neg he]
      exact hrest

end EnvFile
