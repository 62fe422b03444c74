import FloppyGuard.Lib.Table
import FloppyGuard.Lib.Text
import Mathlib.Algebra.BigOperators.Group.List.Basic

/-! Counts a script keeps in an object: `o[k] = (o[k] || 0) + c`. A name the object has no property
of can still have a value that every object inherits, and a text takes part in `+` as one. -/
namespace Counts

inductive Value where
  | num (n : ℕ)
  | text (s : List Char)
  deriving DecidableEq

abbrev Object := Table (List Char) Value

def Value.render : Value → List Char
  | .num n => Nat.toDigits 10 n
  | .text s => s

/-- `a + b` -/
def plus : Value → Value → Value
  | .num a, .num b => .num (a + b)
  | a, b => .text (a.render ++ b.render)

/-- The inherited functions by the name they show. -/
def inheritedFunctions : List (List Char × List Char) :=
  ("constructor".toList, "Object".toList) ::
    (["toString", "toLocaleString", "valueOf", "hasOwnProperty", "isPrototypeOf",
      "propertyIsEnumerable", "__defineGetter__",
      "__defineSetter__", "__lookupGetter__", "__lookupSetter__"].map fun name =>
        (name.toList, name.toList))

def prototypeName : List Char := "__proto__".toList

/-- What `+` makes of a value that every object inherits. -/
def inherited (k : List Char) : Option Value :=
  if k = prototypeName then some (.text "[object Object]".toList)
  else (inheritedFunctions.lookup k).map fun name =>
    .text ("function ".toList ++ name ++ "() \x7b [native code] \x7d".toList)

/-- `o[k] || 0` -/
def valueAt (o : Object) (k : List Char) : Value :=
  match (o.get? k).or (inherited k) with
  | none | some (.text []) => .num 0
  | some v => v

/-- An inherited `__proto__` takes no value that is not an object. -/
def assign (o : Object) (k : List Char) (v : Value) : Object :=
  if k = prototypeName ∧ k ∉ o.keys then o else o.set k v

def bump (o : Object) (k : List Char) (c : Value) : Object := assign o k (plus (valueAt o k) c)

/-- Every count of an object on top of those there are. -/
def addAll (acc o : Object) : Object := o.entries.foldl (fun acc p => bump acc p.1 p.2) acc

/-- The sum a loop over the values makes. -/
def sum (o : Object) : Value := o.values.foldl plus (.num 0)

def Value.count : Value → ℕ
  | .num n => n
  | .text _ => 0

def count (o : Object) (k : List Char) : ℕ := (o.get? k).elim 0 Value.count

/-- `a < b`, which no text is. -/
def Value.lt : Value → Value → Bool
  | .num a, .num b => a < b
  | _, _ => false

/-- The highest counts first. -/
def sortDesc (o : Object) : Object where
  entries := o.entries.mergeSort fun a b => !a.2.lt b.2
  nodup := ((List.mergeSort_perm _ _).map Prod.fst).nodup_iff.mpr o.nodup

/-- The first entries of an object. -/
def take (o : Object) (n : ℕ) : Object where
  entries := o.entries.take n
  nodup := ((List.take_sublist n _).map Prod.fst).nodup o.nodup

def trimMap (o : Object) (max : ℕ) : Object :=
  if o.entries.length ≤ max then o else take (sortDesc o) max

/-- An object of numbers under names that mean nothing else. -/
structure IsCounts (o : Object) : Prop where
  own : ∀ k ∈ o.keys, inherited k = none
  nums : ∀ v ∈ o.values, v = .num v.count

variable {o acc : Object} {k k' : List Char} {v : Value} {n : ℕ}

@[simp] theorem plus_num (a b : ℕ) : plus (.num a) (.num b) = .num (a + b) := rfl

theorem isCounts_empty : IsCounts Table.empty := by
  constructor
  · intro k hk
    cases hk
  · intro v hv
    cases hv

theorem ne_prototypeName (h : inherited k = none) : k ≠ prototypeName := by
  rintro rfl
  exact absurd h (by simp [inherited])

theorem IsCounts.get? (h : IsCounts o) : o.get? k = none ∨ o.get? k = some (.num (count o k)) := by
  cases hk : o.get? k with
  | none => exact .inl rfl
  | some v =>
    have hnum := h.nums v (Table.mem_values.mpr ⟨k, hk⟩)
    rw [count, hk]
    exact .inr (congrArg some hnum)

theorem get?_sortDesc : (sortDesc o).get? k = o.get? k := by
  refine Option.ext fun v => ?_
  rw [← Table.mem_entries_iff, ← Table.mem_entries_iff]
  exact List.mem_mergeSort

theorem count_sortDesc : count (sortDesc o) k = count o k := by
  rw [count, get?_sortDesc, count]

theorem IsCounts.sortDesc (h : IsCounts o) : IsCounts (sortDesc o) := by
  constructor
  · intro k hk
    obtain ⟨v, hv⟩ := Table.mem_keys.mp hk
    exact h.own k (Table.mem_keys.mpr ⟨v, get?_sortDesc.symm.trans hv⟩)
  · intro v hv
    obtain ⟨k, hk⟩ := Table.mem_values.mp hv
    exact h.nums v (Table.mem_values.mpr ⟨k, get?_sortDesc.symm.trans hk⟩)

/-- Where nothing is inherited, a number is read as one. -/
theorem valueAt_eq (hk : inherited k = none)
    (h : o.get? k = none ∨ o.get? k = some (.num (count o k))) :
    valueAt o k = .num (count o k) := by
  obtain h | h := h
  · simp only [valueAt, count, h, hk, Option.or_none, Option.elim_none]
  · rw [valueAt, h, Option.some_or]

theorem get?_bump (hk : inherited k = none)
    (h : o.get? k = none ∨ o.get? k = some (.num (count o k))) :
    (bump o k (.num n)).get? k' = if k' = k then some (.num (count o k + n)) else o.get? k' := by
  rw [bump, assign, if_neg fun hp => ne_prototypeName hk hp.1, Table.get?_set, valueAt_eq hk h,
    plus_num]

theorem IsCounts.bump (h : IsCounts o) (hk : inherited k = none) :
    IsCounts (bump o k (.num n)) := by
  constructor
  · intro k' hk'
    obtain ⟨v, hv⟩ := Table.mem_keys.mp hk'
    rw [get?_bump hk h.get?] at hv
    split at hv
    · next he => exact he ▸ hk
    · exact h.own k' (Table.mem_keys.mpr ⟨v, hv⟩)
  · intro v hv
    obtain ⟨k', hv⟩ := Table.mem_values.mp hv
    rw [get?_bump hk h.get?] at hv
    split at hv
    · cases hv
      rfl
    · exact h.nums v (Table.mem_values.mpr ⟨k', hv⟩)

theorem count_bump (hk : inherited k = none)
    (h : o.get? k = none ∨ o.get? k = some (.num (count o k))) :
    count (Counts.bump o k (.num n)) k' = count o k' + if k' = k then n else 0 := by
  rw [count, get?_bump hk h]
  split
  · next he =>
    subst he
    rfl
  · rfl

/-- Pairs of a name and a number, one after the other. -/
theorem foldl_bump {ps : List (List Char × Value)} (h : IsCounts acc)
    (hown : ∀ p ∈ ps, inherited p.1 = none)
    (hnums : ∀ p ∈ ps, p.2 = .num p.2.count) :
    IsCounts (ps.foldl (fun acc p => Counts.bump acc p.1 p.2) acc) ∧
      ∀ k, count (ps.foldl (fun acc p => Counts.bump acc p.1 p.2) acc) k =
        count acc k + (ps.map fun p => if p.1 = k then p.2.count else 0).sum := by
  induction ps generalizing acc with
  | nil => exact ⟨h, fun k => rfl⟩
  | cons p ps ih =>
    have hp := hown p List.mem_cons_self
    have hn := hnums p List.mem_cons_self
    have hbump : Counts.bump acc p.1 p.2 = Counts.bump acc p.1 (.num p.2.count) := congrArg _ hn
    obtain ⟨hcounts, hcount⟩ :=
      ih (hbump ▸ h.bump hp : IsCounts (Counts.bump acc p.1 p.2))
        (fun q hq => hown q (List.mem_cons_of_mem _ hq))
      fun q hq => hnums q (List.mem_cons_of_mem _ hq)
    refine ⟨hcounts, fun k => ?_⟩
    rw [List.foldl_cons, hcount, hbump, count_bump hp h.get?, List.map_cons, List.sum_cons,
      Nat.add_assoc]
    simp only [eq_comm]

theorem IsCounts.entries (h : IsCounts o) {p : List Char × Value} (hp : p ∈ o.entries) :
    inherited p.1 = none ∧ p.2 = .num p.2.count :=
  ⟨h.own p.1 (List.mem_map_of_mem hp), h.nums p.2 (List.mem_map_of_mem hp)⟩

/-- A name stands once. -/
theorem sum_at {ps : List (List Char × Value)} (hn : (ps.map Prod.fst).Nodup) :
    (ps.map fun p => if p.1 = k then p.2.count else 0).sum =
    ((ps.find? (·.1 = k)).map Prod.snd).elim 0 Value.count := by
  induction ps with
  | nil => rfl
  | cons p ps ih =>
    obtain ⟨hnot, hn⟩ := List.nodup_cons.mp hn
    rw [List.map_cons, List.sum_cons]
    by_cases hp : p.1 = k
    · have hzero : (ps.map fun q => if q.1 = k then q.2.count else 0).sum = 0 := by
        refine List.sum_eq_zero fun c hc => ?_
        obtain ⟨q, hq, rfl⟩ := List.mem_map.mp hc
        refine if_neg fun he => hnot ?_
        exact hp ▸ he ▸ List.mem_map_of_mem hq
      rw [if_pos hp, hzero, List.find?_cons_of_pos (by simpa using hp)]
      rfl
    · rw [if_neg hp, ih hn, List.find?_cons_of_neg (by simpa using hp), Nat.zero_add]

theorem addAll_spec (h : IsCounts acc) (ho : IsCounts o) :
    IsCounts (addAll acc o) ∧ ∀ k, count (addAll acc o) k = count acc k + count o k := by
  obtain ⟨hcounts, hcount⟩ := foldl_bump h (fun p hp => (ho.entries hp).1) fun p hp =>
    (ho.entries hp).2
  refine ⟨hcounts, fun k => ?_⟩
  rw [addAll, hcount, sum_at o.nodup]
  rfl

theorem sum_eq (h : IsCounts o) : sum o = .num (o.values.map Value.count).sum := by
  have hfold : ∀ (vs : List Value) (n : ℕ), (∀ v ∈ vs, v = .num v.count) →
      vs.foldl plus (.num n) = .num (n + (vs.map Value.count).sum) := by
    intro vs
    induction vs with
    | nil => intro n _; rfl
    | cons v vs ih =>
      intro n hv
      rw [List.foldl_cons, hv v List.mem_cons_self, plus_num, ih _ fun w hw =>
        hv w (List.mem_cons_of_mem _ hw), List.map_cons,
        List.sum_cons, Nat.add_assoc]
      rfl
  rw [sum, hfold o.values 0 h.nums, Nat.zero_add]

/-- Some of the entries of an object. -/
theorem IsCounts.of_get? {o' : Object} (h : IsCounts o)
    (hsub : ∀ k v, o'.get? k = some v → o.get? k = some v) : IsCounts o' := by
  constructor
  · intro k hk
    obtain ⟨v, hv⟩ := Table.mem_keys.mp hk
    exact h.own k (Table.mem_keys.mpr ⟨v, hsub k v hv⟩)
  · intro v hv
    obtain ⟨k, hk⟩ := Table.mem_values.mp hv
    exact h.nums v (Table.mem_values.mpr ⟨k, hsub k v hk⟩)

theorem get?_of_trimMap {max : ℕ} (h : (trimMap o max).get? k = some v) : o.get? k = some v := by
  unfold trimMap at h
  split at h
  · exact h
  · rw [← get?_sortDesc, ← Table.mem_entries_iff]
    exact List.mem_of_mem_take (Table.mem_entries_iff.mpr h)

/-- Few enough names are all kept. -/
theorem trimMap_eq_self {max : ℕ} (h : o.keys.length ≤ max) : trimMap o max = o :=
  if_pos (by rwa [Table.keys, List.length_map] at h)

end Counts
