import FloppyGuard.Agent.TokenHistory

/-! What the enrolment protocol promises, in the runs whose patches find the row they were decided
on. -/
namespace FloppyGuard.Enrolment

variable {s t : State} {act : Act} {acts : List Act} {e : Event} {c : ℕ} {v r a x : Token}

/-- The row belongs to the last reset, which issued `r`. -/
structure Current (s : State) (r : Token) : Prop where
  issued : .reset r ∈ s.log
  new : r ∉ tokens (beforeReset s.log)
  reg : s.row.regToken = some r ∨ s.row.regToken = none ∧ ∃ a, .authenticated a ∈ sinceReset s.log
  registered : ∀ v a, .registered v a ∈ sinceReset s.log →
    v = r ∧ a ∉ tokens (beforeReset s.log) ∧ s.row.agentToken = some a
  agent : ∀ a, s.row.agentToken = some a → .registered r a ∈ sinceReset s.log
  authenticated : ∀ a, .authenticated a ∈ sinceReset s.log → s.row.agentToken = some a
  returned : ∀ v, .resetReturned v ∈ sinceReset s.log →
    v = some r ∨ ∃ a, .authenticated a ∈ sinceReset s.log
  confirming : ∀ c, s.calls c = some (.confirming r) → ∃ a, .authenticated a ∈ sinceReset s.log

theorem current_created : Current created 0 := by
  constructor <;> simp [created, sinceReset, beforeReset, Event.isReset, tokens]

/-- Steps that leave the row and the log alone. -/
theorem Current.of_calls (h : Current s r) (hrow : t.row = s.row) (hlog : t.log = s.log)
    (hc : ∀ c, t.calls c = some (.confirming r) → s.calls c = some (.confirming r)) :
    Current t r where
  issued := hlog ▸ h.issued
  new := hlog ▸ h.new
  reg := by rw [hrow, hlog]; exact h.reg
  registered := by rw [hrow, hlog]; exact h.registered
  agent := by rw [hrow, hlog]; exact h.agent
  authenticated := by rw [hrow, hlog]; exact h.authenticated
  returned := by rw [hlog]; exact h.returned
  confirming c hc' := by rw [hlog]; exact h.confirming c (hc c hc')

theorem Current.of_reg (h : Current s r) (hr : s.row.regToken = some v) : v = r := by
  rcases h.reg with hr' | ⟨hn, -⟩
  · exact Option.some.inj (hr.symm.trans hr')
  · simp [hr] at hn

/-- One more event that is not a reset, on a row whose registration token is the same or retired. -/
theorem Current.record (h : Current s r) (he : e.isReset = false)
    (hreg : ∀ v a, e = .registered v a → v = r ∧ a ∉ tokens (beforeReset s.log) ∧
      s.row.agentToken = some a)
    (hauth : ∀ a, e = .authenticated a → s.row.agentToken = some a)
    (hret : ∀ v, e = .resetReturned v → v = some r ∨ ∃ a, .authenticated a ∈ sinceReset s.log) :
    Current (s.record e) r := by
  have hmem : ∀ d, d ∈ sinceReset (e :: s.log) ↔ d = e ∨ d ∈ sinceReset s.log := by
    intro d
    rw [sinceReset_cons he, List.mem_cons]
  have later : (∃ a, .authenticated a ∈ sinceReset s.log) →
      ∃ a, .authenticated a ∈ sinceReset (e :: s.log) := by
    rintro ⟨a, ha⟩
    exact ⟨a, (hmem _).mpr (.inr ha)⟩
  constructor
  · exact List.mem_cons_of_mem _ h.issued
  · simpa [State.record, beforeReset_cons he] using h.new
  · exact h.reg.imp_right (And.imp_right later)
  · intro v a hm
    simp only [State.record, beforeReset_cons he]
    rcases (hmem _).mp hm with hm | hm
    · exact hreg v a hm.symm
    · exact h.registered v a hm
  · exact fun a ha => (hmem _).mpr (.inr (h.agent a ha))
  · intro a hm
    rcases (hmem _).mp hm with hm | hm
    · exact hauth a hm.symm
    · exact h.authenticated a hm
  · intro v hm
    rcases (hmem _).mp hm with hm | hm
    · exact (hret v hm.symm).imp_right later
    · exact (h.returned v hm).imp_right later
  · exact fun c hc => later (h.confirming c hc)

/-- The reset: everything logged before is from now on before it. -/
theorem current_reset (hf : Fresh s) (hc : s.calls c = some (.resetting r)) :
    Current { (s.setCall c (some .viewing)).record (.reset r) with row := ⟨some r, none⟩ } r := by
  have hnew : r ∉ tokens s.log := (hf.drawn c _ r hc rfl).2
  constructor
  · exact List.mem_cons_self ..
  · exact hnew
  · exact .inl rfl
  · nofun
  · nofun
  · nofun
  · nofun
  · intro c' hc'
    rcases calls_setCall.mp hc' with ⟨-, ho⟩ | ⟨-, hc'⟩
    · cases ho
    · exact absurd (hf.known c' _ r hc' rfl) hnew

/-- The patch of `register` on the row it has read: there is no agent token since the reset yet. -/
theorem current_register (hf : Fresh s) (h : Current s r) (hc : s.calls c = some (.registering v a))
    (hrow : s.row = ⟨some v, none⟩) :
    Current
      { (s.setCall c none).record (.registered v a) with
        row := { s.row with agentToken := some a } } r := by
  have hv : v = r := h.of_reg (by rw [hrow])
  subst hv
  have hreg : ∀ v' a', .registered v' a' ∉ sinceReset s.log := by
    intro v' a' hm
    have := (h.registered v' a' hm).2.2
    simp [hrow] at this
  have hauth : ∀ a', .authenticated a' ∉ sinceReset s.log := by
    intro a' hm
    have := h.authenticated a' hm
    simp [hrow] at this
  have hnew : a ∉ tokens (beforeReset s.log) := by
    intro hm
    obtain ⟨d, hd, ha⟩ := List.mem_flatMap.mp hm
    exact (hf.drawn c _ a hc rfl).2 (mem_tokens_of_mem (mem_log_of_beforeReset hd) ha)
  constructor
  · exact List.mem_cons_of_mem _ h.issued
  · exact h.new
  · exact .inl (by rw [hrow])
  · intro v' a' hm
    rcases List.mem_cons.mp hm with he | hm
    · cases he
      exact ⟨rfl, hnew, rfl⟩
    · exact absurd hm (hreg v' a')
  · intro a' ha
    cases Option.some.inj ha
    exact List.mem_cons_self ..
  · intro a' hm
    rcases List.mem_cons.mp hm with he | hm
    · cases he
    · exact absurd hm (hauth a')
  · intro v' hm
    rcases List.mem_cons.mp hm with he | hm
    · cases he
    · exact (h.returned v' hm).imp_right fun ⟨a', ha⟩ => absurd ha (hauth a')
  · intro c' hc'
    rcases calls_setCall.mp hc' with ⟨-, ho⟩ | ⟨-, hc'⟩
    · cases ho
    · obtain ⟨a', ha⟩ := h.confirming c' hc'
      exact absurd ha (hauth a')

/-- The patch of `getConfig` once an agent token has authenticated, or on a retired registration
token. -/
theorem Current.retired (h : Current s r) (ha : ∃ a, .authenticated a ∈ sinceReset s.log) :
    Current { s with row := { s.row with regToken := none } } r where
  issued := h.issued
  new := h.new
  reg := .inr ⟨rfl, ha⟩
  registered := h.registered
  agent := h.agent
  authenticated := h.authenticated
  returned := h.returned
  confirming := h.confirming

theorem current_step (h : step s act = some t) (hu : Unchanged s act) (hf : Fresh s)
    (hs : Current s r) :
    ∃ r', Current t r' := by
  have closed : ∀ c o, (∀ v, o ≠ some (.confirming v)) → Current (s.setCall c o) r := by
    intro c o ho
    refine hs.of_calls rfl rfl fun c' hc' => ?_
    rcases calls_setCall.mp hc' with ⟨-, he⟩ | ⟨-, hc'⟩
    · exact absurd he (ho r)
    · exact hc'
  cases outcome_of_step h with
  | refused => exact ⟨r, hs⟩
  | returns c v a hrow =>
    refine ⟨r, hs.record rfl ?_ nofun nofun⟩
    rintro v' a' ⟨⟩
    have hag : s.row.agentToken = some a := by rw [hrow]
    have hv : v = r := hs.of_reg (by rw [hrow])
    exact ⟨hv, (hs.registered r a (hs.agent a hag)).2.1, hag⟩
  | opens c v hc hrow =>
    exact ⟨r, (closed c (some (.registering v s.next)) nofun).of_calls rfl rfl fun _ hc' => hc'⟩
  | patches c v a hc => exact ⟨r, current_register hf hs hc (hu v a hc)⟩
  | reads c a hrow =>
    refine ⟨r, hs.record rfl nofun ?_ nofun⟩
    rintro a' ⟨⟩
    rw [hrow]
  | confirms c v a hc hrow =>
    have hrec : Current (s.record (.authenticated a)) r := by
      refine hs.record rfl nofun ?_ nofun
      rintro a' ⟨⟩
      rw [hrow]
    refine ⟨r, { hrec with confirming := fun _ _ => ⟨a, List.mem_cons_self ..⟩ }⟩
  | retires c v hc =>
    refine ⟨r, (closed c none nofun).retired ?_⟩
    rcases hu v hc with hn | hv | ha
    · rcases hs.reg with hr | ⟨-, ha⟩
      · simp [hr] at hn
      · exact ha
    · rw [hs.of_reg hv] at hc
      exact hs.confirming c hc
    · exact ha
  | draws c hc =>
    exact ⟨r, (closed c (some (.resetting s.next)) nofun).of_calls rfl rfl fun _ hc' => hc'⟩
  | resets c v hc => exact ⟨v, current_reset hf hc⟩
  | views c hc =>
    refine ⟨r, (closed c none nofun).record rfl nofun nofun ?_⟩
    rintro v ⟨⟩
    rcases hs.reg with hr | ⟨-, ha⟩
    · exact .inl hr
    · exact .inr ha

theorem current_run
    (h : Run (Guarded (fun s act t => step s act = some t) Unchanged) created acts t) :
    ∃ r, Current t r := by
  have hinv : Fresh t ∧ ∃ r, Current t r := by
    refine h.guarded_invariant (I := fun s => Fresh s ∧ ∃ r, Current s r) ?_ ⟨fresh_created, 0,
      current_created⟩
    rintro s act t hst hu ⟨hf, r, hs⟩
    exact ⟨fresh_outcome (outcome_of_step hst) hf, current_step hst hu hf hs⟩
  exact hinv.2

/-! The promises. -/

theorem Current.revoked_registered (h : Current s r) (hx : x ∈ tokens (beforeReset s.log))
    (hm : .registered x a ∈ s.log) : s.row.agentToken ≠ some a := by
  intro ha
  rcases mem_sinceReset_or_beforeReset rfl hm with hm | hm
  · exact h.new ((h.registered x a hm).1 ▸ hx)
  · have hold : a ∈ tokens (beforeReset s.log) :=
      mem_tokens_of_mem hm (List.mem_pair.mpr (.inr rfl))
    exact (h.registered r a (h.agent a ha)).2.1 hold

theorem Current.promised (h : Current s r) : Promised s where
  same v a hm := (h.registered v a hm).2.2
  revoked x hx := by
    refine ⟨fun hr => h.new (h.of_reg hr ▸ hx), fun ha => ?_, fun a hm =>
      h.revoked_registered hx hm⟩
    exact (h.registered r x (h.agent x ha)).2.1 hx
  usable v hm := by
    have issued : (∃ a, .authenticated a ∈ sinceReset s.log) → ∃ r a, .reset r ∈ s.log ∧
        r ∉ tokens (beforeReset s.log) ∧ .registered r a ∈ s.log ∧ .authenticated a ∈ s.log := by
      rintro ⟨a, ha⟩
      have hr := h.agent a (h.authenticated a ha)
      exact ⟨r, a, h.issued, h.new, mem_log_of_sinceReset hr, mem_log_of_sinceReset ha⟩
    rcases h.returned v hm with rfl | ha
    · rcases h.reg with hr | ⟨-, ha⟩
      · exact .inl ⟨nofun, hr⟩
      · exact .inr (issued ha)
    · exact .inr (issued ha)

/-- In every run whose patches find the row their call has read, whatever the order of the queries.
-/
theorem enrolment_promised
    (h : Run (Guarded (fun s act t => step s act = some t) Unchanged) created acts t) :
    Promised t := by
  obtain ⟨r, hr⟩ := current_run h
  exact hr.promised

theorem enrolment_promised_sample :
    ∃ t, Run (Guarded (fun s act t => step s act = some t) Unchanged) created
      [.register 0 0, .registerPatch 0, .getConfig 1 1, .getConfigPatch 1, .resetToken 2,
        .resetPatch 2,
        .resetView 2, .register 3 2, .registerPatch 3] t ∧ t.row = ⟨some 2, some 3⟩ ∧
        Promised t := by
  suffices h : ∃ t, Run (Guarded (fun s act t => step s act = some t) Unchanged) created
      [.register 0 0, .registerPatch 0, .getConfig 1 1, .getConfigPatch 1, .resetToken 2,
        .resetPatch 2,
        .resetView 2, .register 3 2, .registerPatch 3] t ∧ t.row = ⟨some 2, some 3⟩ by
    obtain ⟨t, ht, hrow⟩ := h
    exact ⟨t, ht, hrow, enrolment_promised ht⟩
  refine ⟨_, .cons ⟨rfl, trivial⟩ <| .cons ⟨rfl, ?_⟩ <| .cons ⟨rfl, trivial⟩ <| .cons ⟨rfl, ?_⟩ <|
    .cons ⟨rfl, trivial⟩ <| .cons ⟨rfl, trivial⟩ <| .cons ⟨rfl, trivial⟩ <| .cons ⟨rfl, trivial⟩ <|
    .cons ⟨rfl, ?_⟩ <| .nil _, ?_⟩
  · rintro v a ⟨⟩
    rfl
  · rintro v ⟨⟩
    exact .inr (.inl rfl)
  · rintro v a ⟨⟩
    rfl
  · rfl

/-- Two calls of `register` that both read before either patches; a `register` patched after a
reset; a `getConfig` patched after a reset. -/
theorem enrolment_races :
    (∃ acts t, Run (fun s act t => step s act = some t) created acts t ∧
      .registered 0 1 ∈ sinceReset t.log ∧ .registered 0 2 ∈ sinceReset t.log ∧
      t.row.agentToken = some 2) ∧
    (∃ acts t, Run (fun s act t => step s act = some t) created acts t ∧
      .resetReturned (some 2) ∈ t.log ∧ 0 ∈ tokens (beforeReset t.log) ∧
      .registered 0 1 ∈ sinceReset t.log ∧ t.row.agentToken = some 1) ∧
    (∃ acts t, Run (fun s act t => step s act = some t) created acts t ∧
      .resetReturned (some 2) ∈ sinceReset t.log ∧ (∀ a, .registered 2 a ∉ t.log) ∧
      t.row = ⟨none, none⟩) := by
  refine ⟨?_, ?_, ?_⟩
  · have h : [Act.register 0 0, .register 1 0, .registerPatch 0, .registerPatch 1].foldlM step
        created = some _ := rfl
    exact ⟨_, _, .of_foldlM h, by decide⟩
  · have h : [Act.register 0 0, .resetToken 1, .resetPatch 1, .resetView 1, .registerPatch 0].foldlM
      step created
        = some _ := rfl
    exact ⟨_, _, .of_foldlM h, by decide⟩
  · have h : [Act.register 0 0, .registerPatch 0, .getConfig 1 1, .resetToken 2, .resetPatch 2,
      .resetView 2,
        .getConfigPatch 1].foldlM step created = some _ := rfl
    refine ⟨_, _, .of_foldlM h, by decide, fun a ha => ?_, rfl⟩
    have ha : Event.registered 2 a ∈ [.resetReturned (some 2), .reset 2, .authenticated 1,
        .registered 0 1, .reset 0] :=
      ha
    simp at ha

end FloppyGuard.Enrolment
