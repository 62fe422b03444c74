import FloppyGuard.Agent.Enrolment

/-! What a run of enrolment calls keeps: the drawn tokens stay apart, and the row belongs to the
last reset. -/
namespace FloppyGuard.Enrolment

variable {s t : State} {act : Act} {e : Event} {log : List Event} {c c' : ℕ} {x v r a : Token}
  {k k' : Call}

/-! Reading the log after one more event. -/

theorem sinceReset_cons (he : e.isReset = false) : sinceReset (e :: log) = e :: sinceReset log := by
  simp [sinceReset, he]

theorem beforeReset_cons (he : e.isReset = false) : beforeReset (e :: log) = beforeReset log := by
  simp [beforeReset, he]

theorem mem_tokens_cons : x ∈ tokens (e :: log) ↔ x ∈ e.tokens ∨ x ∈ tokens log := by
  simp [tokens]

theorem mem_tokens_of_mem (he : e ∈ log) (hx : x ∈ e.tokens) : x ∈ tokens log :=
  List.mem_flatMap.mpr ⟨e, he, hx⟩

/-- An event other than a reset lies on one side of the last reset. -/
theorem mem_sinceReset_or_beforeReset (he : e.isReset = false) (hm : e ∈ log) :
    e ∈ sinceReset log ∨ e ∈ beforeReset log := by
  induction log with
  | nil => simp at hm
  | cons d log ih =>
    by_cases hd : d.isReset = true
    · have hne : e ≠ d := fun h => by simp [h, hd] at he
      right
      simpa [beforeReset, hd, hne] using hm
    · have hd' : d.isReset = false := by simpa using hd
      rw [sinceReset_cons hd', beforeReset_cons hd']
      rcases List.mem_cons.mp hm with rfl | hm
      · exact .inl (List.mem_cons_self ..)
      · exact (ih hm).imp_left (List.mem_cons_of_mem _)

theorem mem_log_of_sinceReset (h : e ∈ sinceReset log) : e ∈ log :=
  (List.takeWhile_prefix _).subset h

theorem mem_log_of_beforeReset (h : e ∈ beforeReset log) : e ∈ log :=
  (List.dropWhile_suffix _).subset ((List.tail_suffix _).subset h)

/-! What one step can do. -/

/-- The outcomes of a step, with what it has found in the row. -/
inductive Outcome (s : State) : Act → State → Prop
  | refused (act : Act) : Outcome s act s
  | returns (c : ℕ) (r a : Token) : s.row = ⟨some r, some a⟩ →
      Outcome s (.register c r) (s.record (.registered r a))
  | opens (c : ℕ) (r : Token) : s.calls c = none → s.row = ⟨some r, none⟩ →
      Outcome s (.register c r)
        { s.setCall c (some (.registering r s.next)) with next := s.next + 1 }
  | patches (c : ℕ) (r a : Token) : s.calls c = some (.registering r a) →
      Outcome s (.registerPatch c)
        { (s.setCall c none).record (.registered r a) with
          row := { s.row with agentToken := some a } }
  | reads (c : ℕ) (a : Token) : s.row = ⟨none, some a⟩ →
      Outcome s (.getConfig c a) (s.record (.authenticated a))
  | confirms (c : ℕ) (r a : Token) : s.calls c = none → s.row = ⟨some r, some a⟩ →
      Outcome s (.getConfig c a) ((s.setCall c (some (.confirming r))).record (.authenticated a))
  | retires (c : ℕ) (r : Token) : s.calls c = some (.confirming r) →
      Outcome s (.getConfigPatch c) { s.setCall c none with row := { s.row with regToken := none } }
  | draws (c : ℕ) : s.calls c = none →
      Outcome s (.resetToken c) { s.setCall c (some (.resetting s.next)) with next := s.next + 1 }
  | resets (c : ℕ) (r : Token) : s.calls c = some (.resetting r) →
      Outcome s (.resetPatch c)
        { (s.setCall c (some .viewing)).record (.reset r) with row := ⟨some r, none⟩ }
  | views (c : ℕ) : s.calls c = some .viewing →
      Outcome s (.resetView c) ((s.setCall c none).record (.resetReturned s.row.regToken))

theorem row_eq {row : Row} {o o' : Option Token} (hr : row.regToken = o)
    (ha : row.agentToken = o') :
    row = ⟨o, o'⟩ := by
  cases row
  simp_all

theorem outcome_of_register (h : step s (.register c r) = some t) :
    Outcome s (.register c r) t := by
  simp only [step, register] at h
  cases hc : s.calls c with
  | some k => simp [hc] at h
  | none =>
    by_cases hr : s.row.regToken = some r
    · cases ha : s.row.agentToken with
      | none =>
        simp only [hc, hr, ha, if_true, Option.some.injEq] at h
        exact h ▸ .opens c r hc (row_eq hr ha)
      | some a =>
        simp only [hc, hr, ha, if_true, Option.some.injEq] at h
        exact h ▸ .returns c r a (row_eq hr ha)
    · simp only [hc, hr, if_false, Option.some.injEq] at h
      exact h ▸ .refused _

theorem outcome_of_getConfig (h : step s (.getConfig c a) = some t) :
    Outcome s (.getConfig c a) t := by
  simp only [step, getConfig] at h
  cases hc : s.calls c with
  | some k => simp [hc] at h
  | none =>
    by_cases ha : s.row.agentToken = some a
    · cases hr : s.row.regToken with
      | none =>
        simp only [hc, hr, ha, if_true, Option.some.injEq] at h
        exact h ▸ .reads c a (row_eq hr ha)
      | some r =>
        simp only [hc, hr, ha, if_true, Option.some.injEq] at h
        exact h ▸ .confirms c r a hc (row_eq hr ha)
    · simp only [hc, ha, if_false, Option.some.injEq] at h
      exact h ▸ .refused _

theorem outcome_of_step (h : step s act = some t) : Outcome s act t := by
  cases act with
  | register c r => exact outcome_of_register h
  | getConfig c a => exact outcome_of_getConfig h
  | registerPatch c =>
    simp only [step] at h
    split at h
    next r a hc => exact Option.some.inj h ▸ .patches c r a hc
    next => cases h
  | getConfigPatch c =>
    simp only [step] at h
    split at h
    next r hc => exact Option.some.inj h ▸ .retires c r hc
    next => cases h
  | resetToken c =>
    simp only [step] at h
    split at h
    next => cases h
    next hc => exact Option.some.inj h ▸ .draws c hc
  | resetPatch c =>
    simp only [step] at h
    split at h
    next r hc => exact Option.some.inj h ▸ .resets c r hc
    next => cases h
  | resetView c =>
    simp only [step] at h
    split at h
    next hc => exact Option.some.inj h ▸ .views c hc
    next => cases h

/-! Tokens of different draws. -/

/-- What a call has drawn and not yet written. -/
def Call.drawn : Call → Option Token
  | registering _ agentToken => some agentToken
  | resetting regToken => some regToken
  | confirming _ | viewing => none

/-- The registration token a call has found in the row. -/
def Call.presented : Call → Option Token
  | registering regToken _ | confirming regToken => some regToken
  | resetting _ | viewing => none

/-- The tokens a call under way may still write are new to the row and to the log. -/
structure Fresh (s : State) : Prop where
  logged : ∀ x ∈ tokens s.log, x < s.next
  drawn : ∀ c k x, s.calls c = some k → k.drawn = some x → x < s.next ∧ x ∉ tokens s.log
  distinct : ∀ c c' k k' x, s.calls c = some k → s.calls c' = some k' →
    k.drawn = some x → k'.drawn = some x → c = c'
  reg : ∀ r, s.row.regToken = some r → r ∈ tokens s.log
  agent : ∀ a, s.row.agentToken = some a → a ∈ tokens s.log
  known : ∀ c k x, s.calls c = some k → k.presented = some x → x ∈ tokens s.log

theorem fresh_created : Fresh created := by
  constructor <;> simp [created, tokens, Event.tokens]

theorem calls_setCall {o : Option Call} :
    (s.setCall c o).calls c' = some k ↔ c' = c ∧ o = some k ∨ c' ≠ c ∧ s.calls c' = some k := by
  by_cases h : c' = c
  · subst h
    simp [State.setCall]
  · simp [State.setCall, h]

theorem Fresh.record (h : Fresh s)
    (he : ∀ x ∈ e.tokens, x ∈ tokens s.log ∨ x < s.next ∧ ∀ c k, s.calls c = some k →
      k.drawn ≠ some x) :
    Fresh (s.record e) where
  logged x hx := by
    rcases mem_tokens_cons.mp hx with hx | hx
    · rcases he x hx with hl | ⟨hn, -⟩
      · exact h.logged x hl
      · exact hn
    · exact h.logged x hx
  drawn c k x hc hk := by
    obtain ⟨hn, hl⟩ := h.drawn c k x hc hk
    refine ⟨hn, fun hx => ?_⟩
    rcases mem_tokens_cons.mp hx with hx | hx
    · rcases he x hx with hx | ⟨-, hx⟩
      · exact hl hx
      · exact hx c k hc hk
    · exact hl hx
  distinct := h.distinct
  reg r hr := mem_tokens_cons.mpr (.inr (h.reg r hr))
  agent a ha := mem_tokens_cons.mpr (.inr (h.agent a ha))
  known c k x hc hk := mem_tokens_cons.mpr (.inr (h.known c k x hc hk))

/-- A call that draws the next token. -/
theorem Fresh.opened (h : Fresh s) (hk : k.drawn = some s.next)
    (hp : ∀ x, k.presented = some x → x ∈ tokens s.log) :
    Fresh { s.setCall c (some k) with next := s.next + 1 } where
  logged x hx := Nat.lt_succ_of_lt (h.logged x hx)
  drawn c' k' x hc hx := by
    rcases calls_setCall.mp hc with ⟨-, ho⟩ | ⟨-, hc⟩
    · cases Option.some.inj ho
      cases hk.symm.trans hx
      exact ⟨Nat.lt_succ_self _, fun hl => Nat.lt_irrefl _ (h.logged _ hl)⟩
    · exact (h.drawn c' k' x hc hx).imp_left Nat.lt_succ_of_lt
  distinct c₁ c₂ k₁ k₂ x h₁ h₂ hx₁ hx₂ := by
    have older : ∀ c' k', s.calls c' = some k' → k'.drawn ≠ some s.next := by
      intro c' k' hc hd
      exact Nat.lt_irrefl _ (h.drawn c' k' _ hc hd).1
    rcases calls_setCall.mp h₁ with ⟨e₁, o₁⟩ | ⟨-, h₁⟩ <;> rcases calls_setCall.mp h₂ with ⟨e₂, o₂⟩
      | ⟨-, h₂⟩
    · exact e₁.trans e₂.symm
    · cases Option.some.inj o₁
      exact absurd (hx₂.trans (hx₁.symm.trans hk)) (older c₂ k₂ h₂)
    · cases Option.some.inj o₂
      exact absurd (hx₁.trans (hx₂.symm.trans hk)) (older c₁ k₁ h₁)
    · exact h.distinct c₁ c₂ k₁ k₂ x h₁ h₂ hx₁ hx₂
  reg := h.reg
  agent := h.agent
  known c' k' x hc hx := by
    rcases calls_setCall.mp hc with ⟨-, ho⟩ | ⟨-, hc⟩
    · cases Option.some.inj ho
      exact hp x hx
    · exact h.known c' k' x hc hx

/-- A call that has nothing left to write but what it has read. -/
theorem Fresh.setCall (h : Fresh s) {o : Option Call} (hd : ∀ k, o = some k → k.drawn = none)
    (hp : ∀ k x, o = some k → k.presented = some x → x ∈ tokens s.log) : Fresh (s.setCall c o) where
  logged := h.logged
  drawn c' k' x hc hx := by
    rcases calls_setCall.mp hc with ⟨-, ho⟩ | ⟨-, hc⟩
    · simp [hd k' ho] at hx
    · exact h.drawn c' k' x hc hx
  distinct c₁ c₂ k₁ k₂ x h₁ h₂ hx₁ hx₂ := by
    rcases calls_setCall.mp h₁ with ⟨-, o₁⟩ | ⟨-, h₁⟩
    · simp [hd k₁ o₁] at hx₁
    rcases calls_setCall.mp h₂ with ⟨-, o₂⟩ | ⟨-, h₂⟩
    · simp [hd k₂ o₂] at hx₂
    exact h.distinct c₁ c₂ k₁ k₂ x h₁ h₂ hx₁ hx₂
  reg := h.reg
  agent := h.agent
  known c' k' x hc hx := by
    rcases calls_setCall.mp hc with ⟨-, ho⟩ | ⟨-, hc⟩
    · exact hp k' x ho hx
    · exact h.known c' k' x hc hx

theorem Fresh.setRow (h : Fresh s) {row : Row} (hr : ∀ r, row.regToken = some r → r ∈ tokens s.log)
    (ha : ∀ a, row.agentToken = some a → a ∈ tokens s.log) : Fresh { s with row } where
  logged := h.logged
  drawn := h.drawn
  distinct := h.distinct
  reg := hr
  agent := ha
  known := h.known

/-- Once its call is over, no other call holds the token it has drawn. -/
theorem Fresh.released (h : Fresh s) (hc : s.calls c = some k) (hk : k.drawn = some x)
    {o : Option Call}
    (hd : ∀ k, o = some k → k.drawn = none) (c' : ℕ) (k' : Call)
    (hc' : (s.setCall c o).calls c' = some k') : k'.drawn ≠ some x := by
  intro hx
  rcases calls_setCall.mp hc' with ⟨-, ho⟩ | ⟨hne, hc'⟩
  · simp [hd k' ho] at hx
  · exact hne (h.distinct c' c k' k x hc' hc hx hk)

/-- A call that ends, or goes on to its last query. -/
theorem Fresh.closed (h : Fresh s) {o : Option Call} (ho : o = none ∨ o = some .viewing) :
    Fresh (s.setCall c o) := by
  rcases ho with rfl | rfl
  · exact h.setCall nofun nofun
  · refine h.setCall (fun k hk => ?_) fun k x hk hx => ?_ <;> cases Option.some.inj hk
    · rfl
    · cases hx

/-- A call that ends by logging what it has drawn. -/
theorem Fresh.written (h : Fresh s) (hc : s.calls c = some k) (hk : k.drawn = some x)
    {o : Option Call}
    (ho : o = none ∨ o = some .viewing) (he : ∀ y ∈ e.tokens, y = x ∨ y ∈ tokens s.log) :
    Fresh ((s.setCall c o).record e) := by
  have hd : ∀ k, o = some k → k.drawn = none := by
    rcases ho with rfl | rfl
    · nofun
    · intro k hk
      cases Option.some.inj hk
      rfl
  refine (h.closed ho).record fun y hy => ?_
  rcases he y hy with rfl | hy
  · exact .inr ⟨(h.drawn c k y hc hk).1, h.released hc hk hd⟩
  · exact .inl hy

theorem fresh_outcome (h : Outcome s act t) (hf : Fresh s) : Fresh t := by
  cases h with
  | refused => exact hf
  | returns c r a hrow =>
    refine hf.record fun x hx => .inl ?_
    rcases List.mem_pair.mp hx with rfl | rfl
    · exact hf.reg x (by rw [hrow])
    · exact hf.agent x (by rw [hrow])
  | opens c r hc hrow =>
    refine hf.opened rfl fun x hx => ?_
    cases Option.some.inj hx
    exact hf.reg r (by rw [hrow])
  | patches c r a hc =>
    have hw : Fresh ((s.setCall c none).record (.registered r a)) := by
      refine hf.written hc rfl (.inl rfl) fun y hy => ?_
      rcases List.mem_pair.mp hy with rfl | rfl
      · exact .inr (hf.known c _ y hc rfl)
      · exact .inl rfl
    refine hw.setRow hw.reg fun x hx => ?_
    cases Option.some.inj hx
    exact mem_tokens_of_mem (List.mem_cons_self ..) (List.mem_pair.mpr (.inr rfl))
  | reads c a hrow =>
    refine hf.record fun x hx => .inl ?_
    rw [List.mem_singleton.mp hx]
    exact hf.agent a (by rw [hrow])
  | confirms c r a hc hrow =>
    have hs : Fresh (s.setCall c (some (.confirming r))) := by
      refine hf.setCall (fun k hk => ?_) fun k x hk hx => ?_ <;> cases Option.some.inj hk
      · rfl
      · cases Option.some.inj hx
        exact hf.reg r (by rw [hrow])
    refine hs.record fun x hx => .inl ?_
    rw [List.mem_singleton.mp hx]
    exact hf.agent a (by rw [hrow])
  | retires c r hc => exact (hf.closed (c := c) (.inl rfl)).setRow nofun hf.agent
  | draws c hc => exact hf.opened rfl nofun
  | resets c r hc =>
    have hw : Fresh ((s.setCall c (some .viewing)).record (.reset r)) :=
      hf.written hc rfl (.inr rfl) fun y hy => .inl (List.mem_singleton.mp hy)
    refine hw.setRow (fun x hx => ?_) nofun
    cases Option.some.inj hx
    exact mem_tokens_of_mem (List.mem_cons_self ..) (List.mem_singleton.mpr rfl)
  | views c hc =>
    refine (hf.closed (.inl rfl)).record fun x hx => .inl ?_
    exact hf.reg x (Option.mem_toList.mp hx)

end FloppyGuard.Enrolment
