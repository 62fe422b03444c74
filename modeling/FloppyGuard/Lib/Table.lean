import Mathlib.Data.List.Induction
import Mathlib.Data.List.Nodup

/-! Maps as a script has them: keys in the order of their first insertion, one value each. -/

structure Table (κ ν : Type*) where
  entries : List (κ × ν)
  nodup : (entries.map Prod.fst).Nodup

namespace Table

variable {κ ν ω : Type*} {t : Table κ ν} {k k' : κ} {v w : ν} {p : κ × ν}

def empty : Table κ ν := ⟨[], List.nodup_nil⟩

def keys (t : Table κ ν) : List κ := t.entries.map Prod.fst

def values (t : Table κ ν) : List ν := t.entries.map Prod.snd

/-- The entries whose value is kept, with the new value. -/
def filterMap (t : Table κ ν) (f : κ → ν → Option ω) : Table κ ω where
  entries := t.entries.filterMap fun p => (f p.1 p.2).map (p.1, ·)
  nodup := by
    have hsub : ((t.entries.filterMap fun p => (f p.1 p.2).map (p.1, ·)).map Prod.fst).Sublist
        (t.entries.map Prod.fst) := by
      induction t.entries with
      | nil => simp
      | cons p ps ih =>
        cases h : f p.1 p.2 with
        | none => simpa [h] using ih.cons p.1
        | some w => simpa [h] using ih.cons_cons p.1
    exact t.nodup.sublist hsub

theorem keys_filterMap_some (t : Table κ ν) (f : κ → ν → ω) :
    (t.filterMap fun k v => some (f k v)).keys = t.keys := by
  rw [keys, keys, filterMap]
  simp [List.filterMap_eq_map', Function.comp_def]

variable [DecidableEq κ]

def get? (t : Table κ ν) (k : κ) : Option ν := (t.entries.find? (·.1 = k)).map Prod.snd

/-- An entry keeps its place; a new one goes to the end. -/
def set (t : Table κ ν) (k : κ) (v : ν) : Table κ ν where
  entries := if k ∈ t.keys then t.entries.map fun p => if p.1 = k then (k, v) else p
    else t.entries ++ [(k, v)]
  nodup := by
    split
    · have hkeys : (t.entries.map fun p => if p.1 = k then (k, v) else p).map Prod.fst =
          t.entries.map Prod.fst := by
        rw [List.map_map]
        refine List.map_congr_left fun p _ => ?_
        by_cases h : p.1 = k <;> simp [h]
      exact hkeys ▸ t.nodup
    · next h =>
      rw [List.map_append, List.map_singleton]
      refine t.nodup.append (List.nodup_singleton k) ?_
      rintro a ha hk
      obtain rfl : a = k := List.mem_singleton.mp hk
      exact h ha

theorem mem_entries_iff : (k, v) ∈ t.entries ↔ t.get? k = some v := by
  obtain ⟨entries, hn⟩ := t
  simp only [get?]
  induction entries with
  | nil => simp
  | cons p ps ih =>
    obtain ⟨q, w⟩ := p
    simp only [List.map_cons, List.nodup_cons] at hn
    by_cases h : q = k
    · subst h
      have hnot : (q, v) ∉ ps := fun hm => hn.1 (List.mem_map_of_mem hm)
      simp [hnot, eq_comm]
    · have hne : (k, v) ≠ (q, w) := fun he => h (congrArg Prod.fst he).symm
      simp [h, hne, ih hn.2]

theorem get?_of_mem (h : p ∈ t.entries) : t.get? p.1 = some p.2 := mem_entries_iff.mp h

theorem mem_values : v ∈ t.values ↔ ∃ k, t.get? k = some v := by
  constructor
  · intro h
    obtain ⟨p, hp, rfl⟩ := List.mem_map.mp h
    exact ⟨p.1, get?_of_mem hp⟩
  · rintro ⟨k, hk⟩
    exact List.mem_map_of_mem (mem_entries_iff.mpr hk)

theorem mem_keys : k ∈ t.keys ↔ ∃ v, t.get? k = some v := by
  constructor
  · intro h
    obtain ⟨p, hp, rfl⟩ := List.mem_map.mp h
    exact ⟨p.2, get?_of_mem hp⟩
  · rintro ⟨v, hv⟩
    exact List.mem_map_of_mem (mem_entries_iff.mpr hv)

theorem get?_eq_none : t.get? k = none ↔ k ∉ t.keys := by
  rw [mem_keys, Option.eq_none_iff_forall_not_mem]
  exact not_exists.symm

@[simp] theorem get?_empty : (empty : Table κ ν).get? k = none := rfl

theorem get?_filterMap (f : κ → ν → Option ω) : (t.filterMap f).get? k = (t.get? k).bind (f k) := by
  refine Option.ext fun w => ?_
  rw [← mem_entries_iff, Option.bind_eq_some_iff]
  simp only [filterMap, List.mem_filterMap, Option.map_eq_some_iff, Prod.mk.injEq]
  constructor
  · rintro ⟨⟨q, v⟩, hm, w', hf, rfl, rfl⟩
    exact ⟨v, mem_entries_iff.mp hm, hf⟩
  · rintro ⟨v, hv, hf⟩
    exact ⟨(k, v), mem_entries_iff.mpr hv, w, hf, rfl, rfl⟩

theorem mem_set {q : κ} :
    (q, w) ∈ (t.set k v).entries ↔ q = k ∧ w = v ∨ q ≠ k ∧ (q, w) ∈ t.entries := by
  by_cases h : k ∈ t.keys
  · simp only [set, if_pos h, List.mem_map]
    constructor
    · rintro ⟨p, hp, he⟩
      by_cases hk : p.1 = k
      · rw [if_pos hk] at he
        cases he
        exact .inl ⟨rfl, rfl⟩
      · rw [if_neg hk] at he
        cases he
        exact .inr ⟨hk, hp⟩
    · rintro (⟨rfl, rfl⟩ | ⟨hne, hp⟩)
      · obtain ⟨v', hv'⟩ := mem_keys.mp h
        exact ⟨(q, v'), mem_entries_iff.mpr hv', if_pos rfl⟩
      · exact ⟨(q, w), hp, if_neg hne⟩
  · simp only [set, if_neg h, List.mem_append, List.mem_singleton, Prod.mk.injEq]
    constructor
    · rintro (hp | hp)
      · exact .inr ⟨fun hq => h (hq ▸ List.mem_map_of_mem hp), hp⟩
      · exact .inl hp
    · rintro (hp | ⟨-, hp⟩)
      · exact .inr hp
      · exact .inl hp

theorem get?_set : (t.set k v).get? k' = if k' = k then some v else t.get? k' := by
  refine Option.ext fun w => ?_
  rw [← mem_entries_iff, mem_set, mem_entries_iff]
  by_cases h : k' = k
  · simp [h, eq_comm]
  · simp [h]

/-- `delete t[k]` -/
def erase (t : Table κ ν) (k : κ) : Table κ ν :=
  t.filterMap fun q v => if q = k then none else some v

theorem get?_erase : (t.erase k).get? k' = if k' = k then none else t.get? k' := by
  rw [erase, get?_filterMap]
  by_cases h : k' = k
  · simp [h]
  · simp [h]

omit [DecidableEq κ] in
theorem eq_of_entries {t t' : Table κ ν} (h : t.entries = t'.entries) : t = t' := by
  cases t
  cases t'
  subst h
  rfl

theorem entries_set_of_mem (h : k ∈ t.keys) :
    (t.set k v).entries = t.entries.map fun p => if p.1 = k then (k, v) else p :=
  if_pos h

theorem entries_set_of_notMem (h : k ∉ t.keys) : (t.set k v).entries = t.entries ++ [(k, v)] :=
  if_neg h

theorem entries_erase : (t.erase k).entries = t.entries.filter (·.1 ≠ k) := by
  rw [erase, filterMap, ← List.filterMap_eq_filter]
  refine List.filterMap_congr fun p _ => ?_
  by_cases h : p.1 = k
  · simp [h, Option.guard]
  · simp [h, Option.guard]

theorem erase_set_self : (t.set k v).erase k = t.erase k := by
  have hmap : ∀ ps : List (κ × ν), (ps.map fun p => if p.1 = k then (k, v) else p).filter
      (·.1 ≠ k) = ps.filter (·.1 ≠ k) := by
    intro ps
    induction ps with
    | nil => rfl
    | cons p ps ih =>
      by_cases h : p.1 = k
      · simpa [h] using ih
      · simpa [h] using ih
  refine eq_of_entries ?_
  rw [entries_erase, entries_erase]
  by_cases h : k ∈ t.keys
  · rw [entries_set_of_mem h, hmap]
  · rw [entries_set_of_notMem h]
    simp

theorem erase_set_of_ne (h : k' ≠ k) : (t.set k' v).erase k = (t.erase k).set k' v := by
  have hkeys : k' ∈ (t.erase k).keys ↔ k' ∈ t.keys := by
    rw [mem_keys, mem_keys, get?_erase, if_neg h]
  have hmap : ∀ ps : List (κ × ν), (ps.map fun p => if p.1 = k' then (k', v) else p).filter
    (·.1 ≠ k) =
      (ps.filter (·.1 ≠ k)).map fun p => if p.1 = k' then (k', v) else p := by
    intro ps
    rw [List.filter_map]
    refine congrArg _ (List.filter_congr fun p _ => ?_)
    by_cases hp : p.1 = k'
    · simp [hp]
    · simp [hp]
  refine eq_of_entries ?_
  rw [entries_erase]
  by_cases hk : k' ∈ t.keys
  · rw [entries_set_of_mem hk, entries_set_of_mem (hkeys.mpr hk), entries_erase, hmap]
  · rw [entries_set_of_notMem hk, entries_set_of_notMem (mt hkeys.mp hk), entries_erase]
    simp [h]

/-- Keys that are renamed apart stay apart. -/
theorem entries_set_map {f : κ → κ} {t' : Table κ ν}
    (h : t'.entries = t.entries.map (Prod.map f id))
    (hf : ∀ q ∈ t.keys, f q = f k → q = k) :
    (t'.set (f k) v).entries = (t.set k v).entries.map (Prod.map f id) := by
  have hkeys : f k ∈ t'.keys ↔ k ∈ t.keys := by
    rw [keys, h, List.map_map]
    constructor
    · intro hk
      obtain ⟨p, hp, he⟩ := List.mem_map.mp hk
      exact hf p.1 (List.mem_map_of_mem hp) he ▸ List.mem_map_of_mem hp
    · intro hk
      obtain ⟨p, hp, rfl⟩ := List.mem_map.mp hk
      exact List.mem_map.mpr ⟨p, hp, rfl⟩
  by_cases hk : k ∈ t.keys
  · rw [entries_set_of_mem (hkeys.mpr hk), entries_set_of_mem hk, h, List.map_map, List.map_map]
    refine List.map_congr_left fun p hp => ?_
    by_cases he : p.1 = k
    · simp [he]
    · have hne : f p.1 ≠ f k := fun heq => he (hf p.1 (List.mem_map_of_mem hp) heq)
      simp [he, hne]
  · rw [entries_set_of_notMem (mt hkeys.mp hk), entries_set_of_notMem hk, h, List.map_append]
    rfl

/-! An index by a key that should be unique: a second element with a key blots the first out. -/

variable {α : Type*} {key : α → Option κ} {xs : List α} {x : α}

def index (key : α → Option κ) (xs : List α) : Table κ (Option α) :=
  xs.foldl (fun t x =>
    match key x with
    | none => t
    | some k => t.set k (if (t.get? k).isSome then none else some x)) empty

section Fold
variable {ι : Type*} (own : ι → κ) {f : Table κ ν → ι → Table κ ν} {g : ι → Option ν → Option ν}
  {is : List ι}

theorem get?_foldl_of_notMem
    (hf : ∀ t i k, (f t i).get? k = if k = own i then g i (t.get? k) else t.get? k)
    (h : k ∉ is.map own) : (is.foldl f t).get? k = t.get? k := by
  induction is generalizing t with
  | nil => rfl
  | cons i is ih =>
    rw [List.map_cons, List.mem_cons, not_or] at h
    rw [List.foldl_cons, ih h.2, hf, if_neg h.1]

theorem get?_foldl_of_mem
    (hf : ∀ t i k, (f t i).get? k = if k = own i then g i (t.get? k) else t.get? k)
    (hnd : (is.map own).Nodup) {i : ι} (hi : i ∈ is) :
    (is.foldl f t).get? (own i) = g i (t.get? (own i)) := by
  induction is generalizing t with
  | nil => cases hi
  | cons j is ih =>
    rw [List.map_cons, List.nodup_cons] at hnd
    rw [List.foldl_cons]
    rcases List.mem_cons.mp hi with rfl | hi
    · rw [get?_foldl_of_notMem own hf hnd.1, hf, if_pos rfl]
    · have hne : own i ≠ own j := fun he => hnd.1 (he ▸ List.mem_map_of_mem hi)
      rw [ih hnd.2 hi, hf, if_neg hne]

end Fold

end Table
