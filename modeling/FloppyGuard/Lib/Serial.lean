import FloppyGuard.Lib.Run

/-! Sections that a promise chain runs one after the other (`next = lock.then(fn, fn)` and `lock =
next.catch(() => …)`): each starts when the one before it has settled, with a result or with an
error. -/
namespace Serial

/-- A section and what it does next. -/
inductive Phase (χ : Type*)
  | waiting (c : χ)
  | running (c : χ)
  | settled

/-- The sections in the order of their calls. -/
structure State (ω χ : Type*) where
  world : ω
  sections : List (Phase χ)

inductive Act (χ : Type*)
  | call (c : χ)
  | start (n : ℕ)
  | move (n : ℕ)
  | other

variable {ω χ : Type*}

/-- The promise the section hangs on is settled. -/
def Free (sections : List (Phase χ)) (n : ℕ) : Prop := ∀ m, m + 1 = n → sections[m]? = some .settled

/-- `act w c w' r`: a section at `c` changes the world from `w` to `w'` and goes on with `r`, or
settles. -/
inductive Step (enter : χ → Prop) (act : ω → χ → ω → Option χ → Prop) (other : ω → ω → Prop) :
    State ω χ → Act χ → State ω χ → Prop
  | call {s : State ω χ} {c : χ} : enter c →
      Step enter act other s (.call c) ⟨s.world, s.sections ++ [.waiting c]⟩
  | start {s : State ω χ} {n : ℕ} {c : χ} : s.sections[n]? = some (.waiting c) → Free s.sections n →
    Step enter act other s (.start n) ⟨s.world, s.sections.set n (.running c)⟩
  | move {s : State ω χ} {n : ℕ} {c : χ} {w : ω} {r : Option χ} : s.sections[n]? =
      some (.running c) → act s.world c w r →
    Step enter act other s (.move n) ⟨w, s.sections.set n (r.elim .settled .running)⟩
  | other {s : State ω χ} {w : ω} : other s.world w → Step enter act other s .other ⟨w, s.sections⟩

/-- What holds of the world between sections, and of world and section where a section is under way.
-/
structure Rule (enter : χ → Prop) (act : ω → χ → ω → Option χ → Prop) (other : ω → ω → Prop)
    (I : ω → Prop) (J : ω → χ → Prop) :
    Prop where
  first : ∀ w c, I w → enter c → J w c
  act : ∀ w c w' r, I w → J w c → act w c w' r → I w' ∧ ∀ c' ∈ r, J w' c'
  other : ∀ w w', I w → other w w' → I w' ∧ ∀ c, J w c → J w' c

/-- Sections before one that has begun have settled. -/
def Ordered (sections : List (Phase χ)) : Prop :=
  ∀ (n : ℕ) (p : Phase χ), sections[n]? = some p → (∀ c, p ≠ .waiting c) →
    ∀ m < n, sections[m]? = some .settled

structure Inv (enter : χ → Prop) (I : ω → Prop) (J : ω → χ → Prop) (s : State ω χ) : Prop where
  world : I s.world
  ordered : Ordered s.sections
  waiting : ∀ (n : ℕ) c, s.sections[n]? = some (.waiting c) → enter c
  running : ∀ (n : ℕ) c, s.sections[n]? = some (.running c) → J s.world c

variable {enter : χ → Prop} {act : ω → χ → ω → Option χ → Prop} {other : ω → ω → Prop}
  {I : ω → Prop} {J : ω → χ → Prop}
  {s t : State ω χ} {a : Act χ} {xs : List (Act χ)} {sections : List (Phase χ)} {n m : ℕ} {c d : χ}
    {p q : Phase χ}

theorem running_ne_waiting (d : χ) : (.running c : Phase χ) ≠ .waiting d := nofun

theorem settled_ne_waiting (d : χ) : (.settled : Phase χ) ≠ .waiting d := nofun

theorem get_set (h : sections[n]? = some p) :
    (sections.set n q)[m]? = if m = n then some q else sections[m]? := by
  rw [List.getElem?_set]
  by_cases he : n = m
  · subst he
    rw [if_pos rfl, if_pos (List.getElem?_eq_some_iff.mp h).1, if_pos rfl]
  · rw [if_neg he, if_neg (Ne.symm he)]

theorem get_append (h : (sections ++ [p])[m]? = some q) :
    sections[m]? = some q ∨ m = sections.length ∧ q = p := by
  rw [List.getElem?_append] at h
  split at h
  · exact .inl h
  · have hm := (List.getElem?_eq_some_iff.mp h).1
    simp only [List.length_singleton] at hm
    have hm : m = sections.length := by omega
    rw [hm, Nat.sub_self] at h
    exact .inr ⟨hm, (Option.some.inj h).symm⟩

theorem free_zero : Free sections 0 := fun m hm => absurd hm (Nat.succ_ne_zero m)

theorem free_succ (h : sections[n]? = some .settled) : Free sections (n + 1) := by
  intro m hm
  obtain rfl : m = n := Nat.succ.inj hm
  exact h

/-- No two sections are under way. -/
theorem Ordered.eq (h : Ordered sections) (hn : sections[n]? = some (.running c))
    (hm : sections[m]? = some (.running d)) :
    m = n := by
  rcases Nat.lt_trichotomy m n with hlt | heq | hlt
  · have hsettled := h n _ hn running_ne_waiting m hlt
    rw [hm] at hsettled
    cases hsettled
  · exact heq
  · have hsettled := h m _ hm running_ne_waiting n hlt
    rw [hn] at hsettled
    cases hsettled

/-- A section that begins, or goes on, keeps the order. -/
theorem Ordered.set (h : Ordered sections) (hp : sections[n]? = some p)
    (hbefore : ∀ m < n, sections[m]? = some .settled)
    (hkeeps : p = .settled → q = .settled) : Ordered (sections.set n q) := by
  intro k r hk hr m hm
  rw [get_set hp] at hk ⊢
  have hmk : sections[m]? = some .settled := by
    by_cases he : k = n
    · exact hbefore m (he ▸ hm)
    · rw [if_neg he] at hk
      exact h k r hk hr m hm
  by_cases he : m = n
  · rw [if_pos he]
    rw [he, hp] at hmk
    exact congrArg some (hkeeps (Option.some.inj hmk))
  · rw [if_neg he]
    exact hmk

theorem Ordered.before (h : Ordered sections) (hfree : Free sections n) :
    ∀ m < n, sections[m]? = some .settled := by
  intro m hm
  cases n with
  | zero => exact absurd hm (Nat.not_lt_zero m)
  | succ n =>
    have hlast := hfree n rfl
    rcases Nat.lt_or_eq_of_le (Nat.le_of_lt_succ hm) with hlt | heq
    · exact h n _ hlast settled_ne_waiting m hlt
    · exact heq ▸ hlast

theorem Rule.step (hrule : Rule enter act other I J) (hs : Step enter act other s a t)
    (h : Inv enter I J s) : Inv enter I J t := by
  obtain ⟨hworld, hordered, hwaiting, hrunning⟩ := h
  cases hs with
  | @call c hc =>
    refine ⟨hworld, ?_, ?_, ?_⟩
    · intro k p hk hp m hm
      rcases get_append hk with hk | ⟨-, rfl⟩
      · have hsettled := hordered k p hk hp m hm
        rw [List.getElem?_append_left (List.getElem?_eq_some_iff.mp hsettled).1]
        exact hsettled
      · exact absurd rfl (hp c)
    · intro k d hk
      rcases get_append hk with hk | ⟨-, he⟩
      · exact hwaiting k d hk
      · cases he
        exact hc
    · intro k d hk
      rcases get_append hk with hk | ⟨-, he⟩
      · exact hrunning k d hk
      · cases he
  | @start n c hc hfree =>
    refine ⟨hworld, hordered.set hc (hordered.before hfree) (fun he => by cases he), ?_, ?_⟩
    · intro k d hk
      rw [get_set hc] at hk
      split at hk
      · cases hk
      · exact hwaiting k d hk
    · intro k d hk
      rw [get_set hc] at hk
      split at hk
      · cases hk
        exact hrule.first _ _ hworld (hwaiting n c hc)
      · exact hrunning k d hk
  | @move n c w r hc hact =>
    obtain ⟨hworld', hnext⟩ := hrule.act _ _ _ _ hworld (hrunning n c hc) hact
    refine ⟨hworld', hordered.set hc (hordered n _ hc running_ne_waiting) (fun he => by cases he),
      ?_, ?_⟩
    · intro k d hk
      rw [get_set hc] at hk
      split at hk
      · cases r with
        | none => cases hk
        | some c' => cases hk
      · exact hwaiting k d hk
    · intro k d hk
      rw [get_set hc] at hk
      split at hk
      · cases r with
        | none => cases hk
        | some c' =>
          cases hk
          exact hnext d rfl
      · next hne => exact absurd (hordered.eq hc hk) hne
  | @other w hw =>
    obtain ⟨hworld', hstable⟩ := hrule.other _ _ hworld hw
    exact ⟨hworld', hordered, hwaiting, fun k d hk => hstable d (hrunning k d hk)⟩

/-- What the sections keep, every run of them keeps. -/
theorem Rule.run {w : ω} (hrule : Rule enter act other I J)
    (h : Run (Step enter act other) ⟨w, []⟩ xs t) (hw : I w) :
    Inv enter I J t := by
  refine h.invariant (fun _ _ _ hs => hrule.step hs) ⟨hw, ?_, ?_, ?_⟩
  · intro n p hp
    cases hp
  · intro n c hc
    cases hc
  · intro n c hc
    cases hc

/-- While a section has not settled, the first such one can go on. -/
theorem progress (hact : ∀ w c, ∃ w' r, act w c w' r) (hp : s.sections[n]? = some p)
    (hn : p ≠ .settled) :
    ∃ m ≤ n, ∃ t, Step enter act other s (.start m) t ∨ Step enter act other s (.move m) t := by
  induction n using Nat.strongRecOn generalizing p with
  | _ n ih =>
    by_cases hbefore : Free s.sections n
    · refine ⟨n, Nat.le_refl n, ?_⟩
      cases p with
      | waiting c => exact ⟨_, .inl (.start hp hbefore)⟩
      | running c =>
        obtain ⟨w, r, hr⟩ := hact s.world c
        exact ⟨_, .inr (.move hp hr)⟩
      | settled => exact absurd rfl hn
    · -- the one before has not settled either
      simp only [Free, not_forall] at hbefore
      obtain ⟨m, hm, hunsettled⟩ := hbefore
      have hlt : m < s.sections.length := by
        have := (List.getElem?_eq_some_iff.mp hp).1
        omega
      have hget : s.sections[m]? = some s.sections[m] := List.getElem?_eq_getElem hlt
      obtain ⟨k, hk, hstep⟩ := ih m (by omega) hget fun he =>
        hunsettled (hget.trans (congrArg some he))
      exact ⟨k, by omega, hstep⟩

end Serial
