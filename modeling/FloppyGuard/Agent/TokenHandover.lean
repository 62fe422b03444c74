import FloppyGuard.Agent.Promises

/-! The token of an installed agent (`rotate_token`, the poll loop and the install script of
`agent.js`), against the hub's `register`, `getConfig` and `resetToken`. Any request or answer can
be lost, and the agent can stop between any two lines. -/
namespace FloppyGuard.TokenHandover

open Enrolment

/-- `file`: `FGTOKEN` in `config.env`. `memory`: `FGTOKEN` of the running loop. `writing`: what
`rotate_token` has taken and not written yet. `script`: the token in the install script that was
fetched last. `valid`: installed since the last reset. -/
structure State where
  hub : Enrolment.State
  file : Option Token
  memory : Option Token
  writing : Option Token
  script : Option Token
  valid : Bool

inductive Act
  /-- a query or a patch of the hub; only the loop polls -/
  | hub (a : Enrolment.Act)
  | fetchScript
  /-- the script writes `config.env` -/
  | install
  /-- the answer to the registration of the script goes into `config.env` -/
  | installed (regToken agentToken : Token)
  | start
  | stop
  /-- the loop adopts the token of the file -/
  | adopt
  /-- `rotate_token` takes the answer to the loop's registration -/
  | rotate (agentToken : Token)
  | write
  | writeFailed

/-- Requests of the loop carry its token. -/
def sends (s : State) : Enrolment.Act → Bool
  | .getConfig _ agentToken => s.memory = some agentToken && s.writing = none
  | _ => true

def isReset : Enrolment.Act → Bool
  | .resetPatch _ => true
  | _ => false

def step (s : State) : Act → Option State
  | .hub a =>
    if sends s a then (Enrolment.step s.hub a).map fun h =>
      { s with hub := h, valid := s.valid && !isReset a } else none
  | .fetchScript => s.hub.row.regToken.map fun r => { s with script := some r }
  | .install => s.script.map fun r => { s with file := some r, valid := true }
  | .installed r a =>
    if s.script = some r ∧ .registered r a ∈ s.hub.log then some { s with file := some a } else none
  | .start => if s.memory = none then some { s with memory := s.file } else none
  | .stop => some { s with memory := none, writing := none }
  | .adopt => if s.memory ≠ none ∧ s.writing = none then some { s with memory := s.file } else none
  | .rotate a =>
    match s.memory, s.writing with
    | some r, none =>
      if .registered r a ∈ s.hub.log then some { s with memory := some a, writing := some a }
      else none
    | _, _ => none
  | .write => s.writing.map fun a => { s with file := some a, writing := none }
  | .writeFailed => s.writing.map fun _ => { s with writing := none }

abbrev Step (s : State) (a : Act) (t : State) : Prop := step s a = some t

/-- Patches find the row they were decided on. The script is run before anyone has used its token.
An answer is written before the next reset, and `config.env` can be written. -/
def Timely (s : State) : Act → Prop
  | .hub a => Unchanged s.hub a
  | .install => s.hub.row = ⟨s.script, none⟩
  | .installed r a => .registered r a ∈ sinceReset s.hub.log
  | .write => ∀ a, s.writing = some a → ∃ r, .registered r a ∈ sinceReset s.hub.log
  | .writeFailed => False
  | _ => True

abbrev Runs : State → List Act → State → Prop := Run (Guarded Step Timely)

def initial : State := ⟨created, none, none, none, none, false⟩

variable {s t : State} {a : Act} {act : Enrolment.Act} {xs : List Act} {f r : Token}

/-- The token has been used to read the configuration since the last reset. -/
def used (h : Enrolment.State) : Prop := ∃ a, .authenticated a ∈ sinceReset h.log

/-- The file of an installed agent holds its agent token, or a registration token that nobody has
used up; and the loop holds no agent token that the file does not have, unless it is about to write
it. -/
structure Inv (s : State) : Prop where
  fresh : Fresh s.hub
  current : ∃ r, Current s.hub r
  free : ∃ n, ∀ c, n ≤ c → s.hub.calls c = none
  known : ∀ m, s.file = some m ∨ s.memory = some m ∨ s.script = some m → m ∈ tokens s.hub.log
  file : s.valid = true → ∃ f, s.file = some f ∧
    (s.hub.row.agentToken = some f ∨ s.hub.row.regToken = some f ∧ ¬ used s.hub)
  memory : s.valid = true → ∀ m, s.memory = some m → s.hub.row.agentToken = some m →
    s.file = some m ∨ s.writing = some m

theorem inv_initial : Inv initial where
  fresh := fresh_created
  current := ⟨0, current_created⟩
  free := ⟨0, fun _ _ => rfl⟩
  known := by simp [initial]
  file := nofun
  memory := nofun

/-! What a step of the hub means to the file. -/

/-- The registration token goes only when an agent token has been used, and the agent token only by
a reset. -/
theorem row_of_outcome {h h' : Enrolment.State} (ho : Outcome h act h')
    (hreset : isReset act = false) (hu : Unchanged h act)
    (hc : Current h r) : (∀ f, h.row.agentToken = some f → h'.row.agentToken = some f) ∧
      (∀ f, h.row.regToken = some f → ¬ used h → h'.row.regToken = some f) := by
  cases ho with
  | refused => exact ⟨fun f hf => hf, fun f hf _ => hf⟩
  | returns => exact ⟨fun f hf => hf, fun f hf _ => hf⟩
  | opens => exact ⟨fun f hf => hf, fun f hf _ => hf⟩
  | reads => exact ⟨fun f hf => hf, fun f hf _ => hf⟩
  | confirms => exact ⟨fun f hf => hf, fun f hf _ => hf⟩
  | draws => exact ⟨fun f hf => hf, fun f hf _ => hf⟩
  | views => exact ⟨fun f hf => hf, fun f hf _ => hf⟩
  | resets => cases hreset
  | patches c v a hcall =>
    have hrow := hu v a hcall
    refine ⟨fun f hf => ?_, fun f hf _ => hf⟩
    rw [hrow] at hf
    cases hf
  | retires c v hcall =>
    refine ⟨fun f hf => hf, fun f hf hunused => ?_⟩
    rcases hu v hcall with hnone | hv | hused
    · rw [hnone] at hf
      cases hf
    · rw [hc.of_reg hv] at hcall
      exact absurd (hc.confirming c hcall) hunused
    · exact absurd hused hunused

/-- An agent token is used only when the loop polls with it. -/
theorem used_of_outcome {h h' : Enrolment.State} (ho : Outcome h act h') (hused : used h') :
    used h ∨ ∃ c a, act = .getConfig c a ∧ h.row.agentToken = some a ∧ h'.row = h.row := by
  have hold : ∀ e, e.isReset = false → (∀ a, e ≠ .authenticated a) → used (h.record e) →
      used h := by
    rintro e he hne ⟨a, ha⟩
    rw [State.record, sinceReset_cons he] at ha
    rcases List.mem_cons.mp ha with rfl | ha
    · exact absurd rfl (hne a)
    · exact ⟨a, ha⟩
  cases ho with
  | refused => exact .inl hused
  | returns c r a hrow => exact .inl (hold (.registered r a) rfl (by rintro b ⟨⟩) hused)
  | opens => exact .inl hused
  | patches c r a hcall => exact .inl (hold (.registered r a) rfl (by rintro b ⟨⟩) hused)
  | reads c a hrow => exact .inr ⟨c, a, rfl, by rw [hrow], rfl⟩
  | confirms c r a hcall hrow => exact .inr ⟨c, a, rfl, by rw [hrow], rfl⟩
  | retires => exact .inl hused
  | draws => exact .inl hused
  | resets c r hcall =>
    obtain ⟨a, ha⟩ := hused
    cases ha
  | views c hcall => exact .inl (hold (.resetReturned _) rfl (by rintro b ⟨⟩) hused)

theorem agentToken_of_outcome {h h' : Enrolment.State} (ho : Outcome h act h') {m : Token}
    (hm : h'.row.agentToken = some m) :
    h.row.agentToken = some m ∨ ∃ c r, act = .registerPatch c ∧
    h.calls c = some (.registering r m) := by
  cases ho with
  | patches c r a hcall =>
    cases Option.some.inj hm
    exact .inr ⟨c, r, rfl, hcall⟩
  | resets => cases hm
  | refused => exact .inl hm
  | returns => exact .inl hm
  | opens => exact .inl hm
  | reads => exact .inl hm
  | confirms => exact .inl hm
  | retires => exact .inl hm
  | draws => exact .inl hm
  | views => exact .inl hm

theorem free_of_outcome {h h' : Enrolment.State} (ho : Outcome h act h')
    (hfree : ∃ n, ∀ c, n ≤ c → h.calls c = none) :
    ∃ n, ∀ c, n ≤ c → h'.calls c = none := by
  obtain ⟨n, hn⟩ := hfree
  have hset : ∀ (c : ℕ) (o : Option Call), ∃ n, ∀ c', n ≤ c' → (h.setCall c o).calls c' = none := by
    intro c o
    refine ⟨max n (c + 1), fun c' hc' => ?_⟩
    have hne : c' ≠ c := by omega
    rw [State.setCall]
    exact (Function.update_of_ne hne _ _).trans (hn c' (by omega))
  cases ho with
  | refused => exact ⟨n, hn⟩
  | returns => exact ⟨n, hn⟩
  | reads => exact ⟨n, hn⟩
  | opens c r => exact hset c _
  | patches c r a => exact hset c _
  | confirms c r a => exact hset c _
  | retires c r => exact hset c _
  | draws c => exact hset c _
  | resets c r => exact hset c _
  | views c => exact hset c _

/-- The log only grows. -/
theorem tokens_of_outcome {h h' : Enrolment.State} (ho : Outcome h act h') {x : Token}
    (hx : x ∈ tokens h.log) :
    x ∈ tokens h'.log := by
  have hlog : h'.log = h.log ∨ ∃ e, h'.log = e :: h.log := by
    cases ho with
    | refused => exact .inl rfl
    | opens => exact .inl rfl
    | retires => exact .inl rfl
    | draws => exact .inl rfl
    | returns => exact .inr ⟨_, rfl⟩
    | patches => exact .inr ⟨_, rfl⟩
    | reads => exact .inr ⟨_, rfl⟩
    | confirms => exact .inr ⟨_, rfl⟩
    | resets => exact .inr ⟨_, rfl⟩
    | views => exact .inr ⟨_, rfl⟩
  rcases hlog with he | ⟨e, he⟩
  · rwa [he]
  · rw [he]
    exact mem_tokens_cons.mpr (.inr hx)

theorem inv_hub {h : Enrolment.State} (hs : Enrolment.step s.hub act = some h)
    (hsends : sends s act = true)
    (hok : Unchanged s.hub act) (hinv : Inv s) :
    Inv { s with hub := h, valid := s.valid && !isReset act } := by
  have ho := outcome_of_step hs
  obtain ⟨r, hcur⟩ := hinv.current
  have hknown : ∀ m, s.file = some m ∨ s.memory = some m ∨ s.script = some m →
      m ∈ tokens s.hub.log := hinv.known
  refine ⟨fresh_outcome ho hinv.fresh, current_step hs hok hinv.fresh hcur,
    free_of_outcome ho hinv.free,
    fun m hm => tokens_of_outcome ho (hknown m hm), ?_, ?_⟩
  · intro hvalid
    obtain ⟨hwas, hreset⟩ := Bool.and_eq_true_iff.mp hvalid
    obtain ⟨hagent, hreg⟩ := row_of_outcome ho (by simpa using hreset) hok hcur
    obtain ⟨f, hf, hrow⟩ := hinv.file hwas
    rcases hrow with ha | ⟨hr, hunused⟩
    · exact ⟨f, hf, .inl (hagent f ha)⟩
    by_cases hused : used h
    · rcases used_of_outcome ho hused with hused | ⟨c, a, rfl, ha, hrow⟩
      · exact absurd hused hunused
      -- the loop has polled, so its token is in the file
      · have hboth : s.memory = some a ∧ s.writing = none := by simpa [sends] using hsends
        obtain ⟨hmem, hwriting⟩ := hboth
        rcases hinv.memory hwas a hmem ha with hfile | hw
        · exact ⟨a, hfile, .inl (hrow ▸ ha)⟩
        · rw [hwriting] at hw
          cases hw
    · exact ⟨f, hf, .inr ⟨hreg f hr hunused, hused⟩⟩
  · intro hvalid m hm ha
    obtain ⟨hvalid, -⟩ := Bool.and_eq_true_iff.mp hvalid
    rcases agentToken_of_outcome ho ha with hold | ⟨c, v, rfl, hcall⟩
    · exact hinv.memory hvalid m hm hold
    · exact absurd (hknown m (.inr (.inl hm))) (hinv.fresh.drawn c _ m hcall rfl).2

theorem step_inv (hs : Step s a t) (hok : Timely s a) (h : Inv s) : Inv t := by
  obtain ⟨r, hcur⟩ := h.current
  cases a with
  | hub act =>
    simp only [Step, step, Option.ite_none_right_eq_some, Option.map_eq_some_iff] at hs
    obtain ⟨hsends, h', hh, rfl⟩ := hs
    exact inv_hub hh hsends hok h
  | fetchScript =>
    simp only [Step, step, Option.map_eq_some_iff] at hs
    obtain ⟨r, hr, rfl⟩ := hs
    refine ⟨h.fresh, h.current, h.free, ?_, h.file, h.memory⟩
    rintro m (hm | hm | hm)
    · exact h.known m (.inl hm)
    · exact h.known m (.inr (.inl hm))
    · cases Option.some.inj hm
      exact h.fresh.reg r hr
  | install =>
    simp only [Step, step, Option.map_eq_some_iff] at hs
    obtain ⟨r, hr, rfl⟩ := hs
    have hrow : s.hub.row = ⟨s.script, none⟩ := hok
    refine ⟨h.fresh, h.current, h.free, ?_, ?_, ?_⟩
    · rintro m (hm | hm | hm)
      · cases Option.some.inj hm
        exact h.known r (.inr (.inr hr))
      · exact h.known m (.inr (.inl hm))
      · exact h.known m (.inr (.inr hm))
    · intro _
      refine ⟨r, rfl, .inr ⟨by rw [hrow, hr], ?_⟩⟩
      rintro ⟨a, ha⟩
      have hagent := hcur.authenticated a ha
      rw [hrow] at hagent
      cases hagent
    · intro _ m _ hm
      rw [hrow] at hm
      cases hm
  | installed r a =>
    simp only [Step, step, Option.ite_none_right_eq_some, Option.some.injEq] at hs
    obtain ⟨⟨-, hlog⟩, rfl⟩ := hs
    have hagent := (hcur.registered r a hok).2.2
    refine ⟨h.fresh, h.current, h.free, ?_, fun _ => ⟨a, rfl, .inl hagent⟩, ?_⟩
    · rintro m (hm | hm)
      · cases Option.some.inj hm
        exact h.fresh.agent a hagent
      · exact h.known m (.inr hm)
    · intro _ m _ hm
      rw [hagent] at hm
      exact .inl hm
  | start =>
    simp only [Step, step, Option.ite_none_right_eq_some, Option.some.injEq] at hs
    obtain ⟨-, rfl⟩ := hs
    refine ⟨h.fresh, h.current, h.free, ?_, h.file, fun _ m hm _ => .inl hm⟩
    rintro m (hm | hm | hm)
    · exact h.known m (.inl hm)
    · exact h.known m (.inl hm)
    · exact h.known m (.inr (.inr hm))
  | stop =>
    cases hs
    refine ⟨h.fresh, h.current, h.free, ?_, h.file, fun _ _ hm _ => nomatch hm⟩
    rintro m (hm | hm | hm)
    · exact h.known m (.inl hm)
    · cases hm
    · exact h.known m (.inr (.inr hm))
  | adopt =>
    simp only [Step, step, Option.ite_none_right_eq_some, Option.some.injEq] at hs
    obtain ⟨-, rfl⟩ := hs
    refine ⟨h.fresh, h.current, h.free, ?_, h.file, fun _ m hm _ => .inl hm⟩
    rintro m (hm | hm | hm)
    · exact h.known m (.inl hm)
    · exact h.known m (.inl hm)
    · exact h.known m (.inr (.inr hm))
  | rotate a =>
    simp only [Step, step] at hs
    split at hs
    · next r _ _ =>
      obtain ⟨hlog, hs⟩ := Option.ite_none_right_eq_some.mp hs
      cases hs
      refine ⟨h.fresh, h.current, h.free, ?_, h.file, fun _ m hm _ => .inr hm⟩
      rintro m (hm | hm | hm)
      · exact h.known m (.inl hm)
      · cases Option.some.inj hm
        exact mem_tokens_of_mem hlog (List.mem_pair.mpr (.inr rfl))
      · exact h.known m (.inr (.inr hm))
    · cases hs
  | write =>
    simp only [Step, step, Option.map_eq_some_iff] at hs
    obtain ⟨a, hwriting, rfl⟩ := hs
    obtain ⟨r, hlog⟩ := hok a hwriting
    have hagent := (hcur.registered r a hlog).2.2
    refine ⟨h.fresh, h.current, h.free, ?_, fun _ => ⟨a, rfl, .inl hagent⟩, ?_⟩
    · rintro m (hm | hm)
      · cases Option.some.inj hm
        exact h.fresh.agent a hagent
      · exact h.known m (.inr hm)
    · intro _ m _ hm
      rw [hagent] at hm
      exact .inl hm
  | writeFailed => exact hok.elim

theorem run_inv (h : Runs initial xs s) : Inv s := by
  refine h.guarded_invariant (I := Inv) ?_ inv_initial
  intro s a t hs hok hinv
  exact step_inv hs hok hinv

/-- Whatever requests and answers are lost and wherever the agent stops, the file of an agent that
was installed since the last reset holds a token that the hub takes. -/
theorem never_locked_out (h : Runs initial xs s) (hvalid : s.valid = true) : ∃ f, s.file = some f ∧
    (s.hub.row.agentToken = some f ∨ s.hub.row.regToken = some f) := by
  obtain ⟨f, hf, hrow⟩ := (run_inv h).file hvalid
  exact ⟨f, hf, hrow.imp_right And.left⟩

/-- The first answer is lost, and the loop stops before it has written the second. -/
def lossyRun : List Act :=
  [.fetchScript, .install, .hub (.register 0 0), .hub (.registerPatch 0), .start,
    .hub (.register 1 0), .rotate 1, .stop,
    .start, .hub (.register 2 0), .rotate 1, .write, .hub (.getConfig 3 1),
      .hub (.getConfigPatch 3), .stop]

theorem lossyRun_runs : ∃ s, Runs initial lossyRun s ∧ s.valid = true ∧ s.file = some 1 := by
  refine ⟨_, .cons ⟨rfl, trivial⟩ <| .cons ⟨rfl, rfl⟩ <| .cons ⟨rfl, trivial⟩ <| .cons ⟨rfl, ?_⟩ <|
    .cons ⟨rfl, trivial⟩ <|
    .cons ⟨rfl, trivial⟩ <| .cons ⟨rfl, trivial⟩ <| .cons ⟨rfl, trivial⟩ <| .cons ⟨rfl, trivial⟩ <|
      .cons ⟨rfl, trivial⟩ <|
    .cons ⟨rfl, trivial⟩ <| .cons ⟨rfl, ?_⟩ <| .cons ⟨rfl, trivial⟩ <| .cons ⟨rfl, ?_⟩ <|
      .cons ⟨rfl, trivial⟩ <| .nil _, rfl, rfl⟩
  · rintro v a ⟨⟩
    rfl
  · rintro a ⟨⟩
    exact ⟨0, List.mem_cons_self⟩
  · rintro v ⟨⟩
    exact .inr (.inl rfl)

theorem never_locked_out_lossyRun : ∃ s, Runs initial lossyRun s ∧ ∃ f, s.file = some f ∧
    (s.hub.row.agentToken = some f ∨ s.hub.row.regToken = some f) := by
  obtain ⟨s, hs, hvalid, -⟩ := lossyRun_runs
  exact ⟨s, hs, never_locked_out hs hvalid⟩

/-- If the token cannot be written, the next poll retires the only one in the file. -/
theorem locked_out_unwritten :
    ∃ s, Run Step initial [.fetchScript, .install, .start, .hub (.register 0 0),
    .hub (.registerPatch 0), .rotate 1, .writeFailed, .hub (.getConfig 1 1),
    .hub (.getConfigPatch 1)] s ∧
      s.valid = true ∧ s.file = some 0 ∧ s.hub.row = ⟨none, some 1⟩ := by
  have h : [Act.fetchScript, .install, .start, .hub (.register 0 0), .hub (.registerPatch 0),
    .rotate 1, .writeFailed,
      .hub (.getConfig 1 1), .hub (.getConfigPatch 1)].foldlM step initial = some _ := rfl
  exact ⟨_, .of_foldlM h, rfl, rfl, rfl⟩

/-! The way back. -/

/-- What the agent does by itself, when nothing is lost. -/
def Act.own : Act → Bool
  | .hub (.register ..) | .hub (.registerPatch _) | .hub (.getConfig ..) => true
  | .start | .stop | .rotate _ | .write => true
  | _ => false

/-- The hub has just answered the loop, which has its token from the file. -/
structure Back (s : State) (a : Token) : Prop where
  memory : s.memory = some a
  file : s.file = some a
  agentToken : s.hub.row.agentToken = some a
  authenticated : s.hub.log.head? = some (.authenticated a)

variable {n : ℕ} {b : Token}

theorem polls (hmem : s.memory = some b) (hwriting : s.writing = none) (hfile : s.file = some b)
    (hagent : s.hub.row.agentToken = some b) (hfree : s.hub.calls n = none) :
    ∃ t, Step s (.hub (.getConfig n b)) t ∧ Back t b := by
  have hsends : sends s (.getConfig n b) = true := by simp [sends, hmem, hwriting]
  cases hreg : s.hub.row.regToken with
  | none =>
    refine ⟨{ s with
      hub := s.hub.record (.authenticated b), valid := s.valid && !isReset (.getConfig n b) }, ?_,
      hmem, hfile, hagent, rfl⟩
    simp [Step, step, hsends, Enrolment.step, getConfig, hagent, hreg, hfree]
  | some r =>
    refine ⟨{ s with
        hub := (s.hub.setCall n (some (.confirming r))).record (.authenticated b)
        valid := s.valid && !isReset (.getConfig n b) }, ?_, hmem, hfile, hagent, rfl⟩
    simp [Step, step, hsends, Enrolment.step, getConfig, hagent, hreg, hfree]

/-- The answer to a registration is taken, written and used. -/
theorem rotates (hmem : s.memory = some f) (hwriting : s.writing = none)
    (hlog : .registered f b ∈ sinceReset s.hub.log)
    (hagent : s.hub.row.agentToken = some b) (hfree : s.hub.calls n = none) :
    ∃ t, Runs s [.rotate b, .write, .hub (.getConfig n b)] t ∧ Back t b := by
  have hrotate : Step s (.rotate b) { s with memory := some b, writing := some b } := by
    have hmember : .registered f b ∈ s.hub.log := List.takeWhile_subset _ hlog
    simp [Step, step, hmem, hwriting, hmember]
  have hwrite : Step { s with memory := some b, writing := some b } .write
      { s with memory := some b, file := some b, writing := none } := rfl
  have hgiven : Timely { s with memory := some b, writing := some b } .write := by
    rintro a ⟨⟩
    exact ⟨f, hlog⟩
  obtain ⟨t, ht, hback⟩ := polls (s := { s with memory := some b, file := some b, writing := none })
    rfl rfl rfl hagent hfree
  exact ⟨t, .cons ⟨hrotate, trivial⟩ (.cons ⟨hwrite, hgiven⟩ (.cons ⟨ht, trivial⟩ (.nil t))), hback⟩

/-- The loop has the registration token, which the hub still takes. -/
theorem registers (hmem : s.memory = some f) (hwriting : s.writing = none)
    (hreg : s.hub.row.regToken = some f)
    (hfree : s.hub.calls n = none) :
    ∃ ys t b, Runs s ys t ∧ (∀ y ∈ ys, y.own = true) ∧ Back t b := by
  cases hagent : s.hub.row.agentToken with
  | some b =>
    have hstep : Step s (.hub (.register n f)) { s with
        hub := s.hub.record (.registered f b), valid := s.valid && !isReset (.register n f) } := by
      simp [Step, step, sends, Enrolment.step, register, hreg, hagent, hfree]
    obtain ⟨t, ht, hback⟩ := rotates (s := { s with
      hub := s.hub.record (.registered f b), valid := s.valid && !isReset (.register n f) })
      (n := n) hmem hwriting List.mem_cons_self hagent hfree
    exact ⟨_, t, b, .cons ⟨hstep, trivial⟩ ht, by simp [Act.own], hback⟩
  | none =>
    let opened : Enrolment.State :=
      { s.hub.setCall n (some (.registering f s.hub.next)) with next := s.hub.next + 1 }
    let patched : Enrolment.State :=
      { (opened.setCall n none).record (.registered f s.hub.next) with
      row := { opened.row with agentToken := some s.hub.next } }
    have hrow : s.hub.row = ⟨some f, none⟩ := row_eq hreg hagent
    have hcall : opened.calls n = some (.registering f s.hub.next) := Function.update_self ..
    have hstep : Step s (.hub (.register n f))
        { s with hub := opened, valid := s.valid && !isReset (.register n f) } := by
      simp [Step, step, sends, Enrolment.step, register, hreg, hagent, hfree, opened]
    have hpatch : Step { s with hub := opened, valid := s.valid && !isReset (.register n f) }
      (.hub (.registerPatch n))
        { s with
          hub := patched,
          valid := s.valid && !isReset (.register n f) && !isReset (.registerPatch n) } := by
      simp [Step, step, sends, Enrolment.step, hcall, patched]
    have hunchanged : Unchanged opened (.registerPatch n) := by
      intro v c hc
      rw [hcall] at hc
      cases hc
      exact hrow
    obtain ⟨t, ht, hback⟩ := rotates (s := { s with
      hub := patched, valid := s.valid && !isReset (.register n f) && !isReset (.registerPatch n) })
      (n := n) hmem hwriting List.mem_cons_self rfl (Function.update_self ..)
    exact ⟨_, t, _, .cons ⟨hstep, trivial⟩ (.cons ⟨hpatch, hunchanged⟩ ht),
      by simp [Act.own], hback⟩

/-- From any state of any run, an agent that was installed since the last reset can come back by
itself: it starts anew, and if it has to it registers. -/
theorem comes_back (h : Runs initial xs s) (hvalid : s.valid = true) :
    ∃ ys t b, Runs s ys t ∧ (∀ y ∈ ys, y.own = true) ∧ Back t b := by
  have hinv := run_inv h
  obtain ⟨f, hf, hrow⟩ := hinv.file hvalid
  obtain ⟨n, hn⟩ := hinv.free
  have hfree := hn n (Nat.le_refl n)
  have hstop : Step s .stop { s with memory := none, writing := none } := rfl
  have hstart : Step { s with memory := none, writing := none } .start
      { s with memory := some f, writing := none } := by
    simp [Step, step, hf]
  have hbegin : ∀ {ys t}, Runs { s with memory := some f, writing := none } ys t →
      Runs s (.stop :: .start :: ys) t :=
    fun hys => .cons ⟨hstop, trivial⟩ (.cons ⟨hstart, trivial⟩ hys)
  rcases hrow with ha | ⟨hr, -⟩
  · obtain ⟨t, ht, hback⟩ :=
      polls (s := { s with memory := some f, writing := none }) rfl rfl hf ha hfree
    exact ⟨_, t, f, hbegin (.cons ⟨ht, trivial⟩ (.nil t)), by simp [Act.own], hback⟩
  · obtain ⟨ys, t, b, hys, hown, hback⟩ :=
      registers (s := { s with memory := some f, writing := none }) rfl rfl hr hfree
    refine ⟨_, t, b, hbegin hys, ?_, hback⟩
    intro y hy
    rcases List.mem_cons.mp hy with rfl | hy
    · rfl
    rcases List.mem_cons.mp hy with rfl | hy
    · rfl
    · exact hown y hy

theorem comes_back_lossyRun : ∃ s, Runs initial lossyRun s ∧
    ∃ ys t b, Runs s ys t ∧ (∀ y ∈ ys, y.own = true) ∧ Back t b := by
  obtain ⟨s, hs, hvalid, -⟩ := lossyRun_runs
  exact ⟨s, hs, comes_back hs hvalid⟩

end FloppyGuard.TokenHandover
