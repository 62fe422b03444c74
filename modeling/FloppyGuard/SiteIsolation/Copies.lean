import FloppyGuard.SiteIsolation.Applier
import FloppyGuard.SiteIsolation.Verdict

/-! The three copies of the applied table (memory, kernel, boot file) over whole
runs, with every step allowed to fail. -/
namespace FloppyGuard.SiteIsolation

variable {rt : Runtime} {path : String} {w w' : World} {ev : Apply} {raw : Input} {script : Script}

/-- The input the plan of an apply is made from, held links included. -/
def usedInput (w : World) (raw : Input) : Input := withHeldLinks w.mem raw

def planOf (rt : Runtime) (input : Input) : Plan := planSiteIsolation rt input.pairs input.links

def scriptOf (rt : Runtime) (input : Input) : Except String Script :=
  buildSiteIsolationNft rt input.pairs input.links

/-- The world once the input is read: streaks counted, warnings of the plan noted. -/
def prepared (rt : Runtime) (w : World) (raw : Input) : World :=
  { w with mem := { w.mem with
      missingStreak := nextStreak w.mem raw
      planWarnings := (planOf rt (usedInput w raw)).warnings
      heldWarnings := heldWarnings w.mem raw } }

/-- Everything one apply can do. -/
inductive ApplyOutcome (rt : Runtime) (path : String) (ev : Apply) (w : World) :
    Result × World → Prop
  | unreadable (e : String) (hin : ev.input = .error e) :
      ApplyOutcome rt path ev w
        (fail path w ev.now "input" ("Eingaben nicht lesbar: " ++ errText e))
  | unresolved (raw : Input) (hin : ev.input = .ok raw)
      (hu : linksUnresolved (usedInput w raw) (planOf rt (usedInput w raw)) = true) :
      ApplyOutcome rt path ev w (fail path (prepared rt w raw) ev.now "links-unresolved"
        (unresolvedMessage (usedInput w raw) (planOf rt (usedInput w raw))))
  | kept (raw : Input) (script : Script) (hin : ev.input = .ok raw)
      (hsc : scriptOf rt (usedInput w raw) = .ok script)
      (hu : linksUnresolved (usedInput w raw) (planOf rt (usedInput w raw)) = false)
      (hup : upToDate rt w ev script = true) :
      ApplyOutcome rt path ev w (keepTable path (prepared rt w raw) ev script)
  | loading (raw : Input) (script : Script) (hin : ev.input = .ok raw)
      (hsc : scriptOf rt (usedInput w raw) = .ok script)
      (hu : linksUnresolved (usedInput w raw) (planOf rt (usedInput w raw)) = false) :
      ApplyOutcome rt path ev w
        (loadTable rt path (prepared rt w raw) ev (usedInput w raw) (planOf rt (usedInput w raw))
          script)

theorem applyOnce_outcome (rt : Runtime) (path : String) (ev : Apply) (w : World) :
    ApplyOutcome rt path ev w (applyOnce rt path ev w) := by
  unfold applyOnce
  split
  · exact .unreadable _ ‹_›
  · rename_i raw hin
    obtain ⟨script, hsc⟩ :=
      buildSiteIsolationNft_ok rt (usedInput w raw).pairs (usedInput w raw).links
    have hsc' := hsc
    unfold usedInput at hsc'
    simp only [hsc']
    split
    · exact .unresolved raw hin ‹_›
    · rename_i hu
      split
      · exact .kept raw script hin hsc (Bool.eq_false_iff.mpr hu) ‹_›
      · exact .loading raw script hin hsc (Bool.eq_false_iff.mpr hu)

@[simp] theorem fail_ok (w : World) (now : ℕ) (code message : String) :
    (fail path w now code message).1.ok = false := rfl

theorem keepTable_ok : (keepTable path w ev script).1.ok = true := rfl

@[simp] theorem persistReported_kernel (w : World) (script : Script) (f : Option String) :
    (persistReported path w script f).kernel = w.kernel := by
  cases f <;> rfl

@[simp] theorem persistReported_writes (w : World) (script : Script) (f : Option String) :
    (persistReported path w script f).writes = script.text :: w.writes := by
  cases f <;> rfl

@[simp] theorem persistReported_script (w : World) (script : Script) (f : Option String) :
    (persistReported path w script f).mem.script = w.mem.script := by
  cases f <;> rfl

@[simp] theorem persistReported_lastLinks (w : World) (script : Script) (f : Option String) :
    (persistReported path w script f).mem.lastLinks = w.mem.lastLinks := by
  cases f <;> rfl

/-- The boot copy is written, or its failure is noted. -/
theorem persistReported_cases (w : World) (script : Script) (f : Option String) :
    ((persistReported path w script f).mem.persisted.isSome = true ∧
        (persistReported path w script f).mem.persistError = none ∧
        (persistReported path w script f).boot = some script.text) ∨
      ((persistReported path w script f).mem.persisted = none ∧
        (persistReported path w script f).mem.persistError.isSome = true ∧
        (persistReported path w script f).boot = w.boot) := by
  cases f with
  | none => exact Or.inl ⟨rfl, rfl, rfl⟩
  | some e => exact Or.inr ⟨rfl, rfl, rfl⟩

/-- The pairs of the last loaded script, none before the first load. -/
def loadedPairs (rt : Runtime) (loads : List Input) : List String :=
  match loads with
  | input :: _ => (planOf rt input).pairs.map pairKey
  | [] => []

/-- The last loaded script. -/
def loadedScript (rt : Runtime) (loads : List Input) : Option Script :=
  loads.head?.bind fun input => (scriptOf rt input).toOption

/-- What is remembered of the last load. -/
structure Remembered (rt : Runtime) (w : World) : Prop where
  source : w.mem.script = loadedScript rt w.loads
  hash : w.mem.hash = w.mem.script.map (scriptHash rt)
  kernel : ∀ sc, w.mem.script = some sc → w.kernel = none ∨ w.kernel = some sc
  applied : w.mem.appliedPairs = loadedPairs rt w.loads
  last : ∀ id l, w.mem.lastLinks id = some l → ∃ input, w.loads.head? = some input ∧
    ((planOf rt input).site? id).isSome = true ∧ byId input.links id = some l

/-- How the copies hang together between two applies. -/
structure Coherent (rt : Runtime) (w : World) : Prop extends Remembered rt w where
  boot : w.mem.persisted.isSome = true → ∃ sc, w.mem.script = some sc ∧ w.boot = some sc.text
  warned : w.mem.script.isSome = true → w.mem.persisted.isSome = true ∨
    w.mem.persistError.isSome = true
  untried : w.mem.persistError.isSome = true → w.mem.persisted = none

theorem coherent_initial {kernel : Option Script} {boot : Option String} :
    Coherent rt ⟨Memory.initial, kernel, boot, [], []⟩ := by
  constructor
  · constructor <;> simp [Memory.initial, loadedPairs, loadedScript]
  all_goals simp [Memory.initial]

theorem coherent_flush (h : Coherent rt w) : Coherent rt { w with kernel := none } :=
  ⟨⟨h.source, h.hash, fun _ _ => Or.inl rfl, h.applied, h.last⟩, h.boot, h.warned, h.untried⟩

theorem coherent_fail {now : ℕ} {code message : String} (h : Coherent rt w) :
    Coherent rt (fail path w now code message).2 :=
  ⟨⟨h.source, h.hash, h.kernel, h.applied, h.last⟩, h.boot, h.warned, h.untried⟩

theorem coherent_prepared (h : Coherent rt w) : Coherent rt (prepared rt w raw) :=
  ⟨⟨h.source, h.hash, h.kernel, h.applied, h.last⟩, h.boot, h.warned, h.untried⟩

/-- Writing the boot copy of the remembered script keeps the copies coherent. -/
theorem coherent_persistReported {f : Option String} (h : Remembered rt w)
    (hs : ∃ sc, w.mem.script = some sc ∧ sc.text = script.text) :
    Coherent rt (persistReported path w script f) := by
  obtain ⟨sc, hs, ht⟩ := hs
  have hr : Remembered rt (persistReported path w script f) := by
    cases f <;> exact ⟨h.source, h.hash, h.kernel, h.applied, h.last⟩
  refine ⟨hr, ?_, ?_, ?_⟩
  all_goals rcases persistReported_cases w script f with ⟨h1, h2, h3⟩ | ⟨h1, h2, h3⟩
  · exact fun _ => ⟨sc, by simpa using hs, by rw [h3, ht]⟩
  · intro hp
    simp [h1] at hp
  · exact fun _ => Or.inl h1
  · exact fun _ => Or.inr h2
  · intro he
    exact absurd (h2 ▸ he) (by simp)
  · exact fun _ => h1

/-- Two scripts with one digest have one text. -/
def DigestTells (rt : Runtime) (a b : Script) : Prop :=
  scriptHash rt a = scriptHash rt b → a.text = b.text

/-- The script a kept table was loaded from, when the digests agree. -/
theorem upToDate_script (h : Coherent rt w) (hup : upToDate rt w ev script = true)
    (hd : ∀ old, w.mem.script = some old → DigestTells rt old script) :
    ∃ old, w.mem.script = some old ∧ w.kernel = some old ∧ old.text = script.text := by
  simp only [upToDate, Bool.and_eq_true, beq_iff_eq] at hup
  obtain ⟨⟨⟨⟨-, hhash⟩, -⟩, hkernel⟩, -⟩ := hup
  rw [h.hash, Option.map_eq_some_iff] at hhash
  obtain ⟨old, hold, hhash⟩ := hhash
  refine ⟨old, hold, ?_, hd old hold hhash⟩
  rcases h.kernel old hold with hk | hk
  · simp [hk] at hkernel
  · exact hk

theorem coherent_applyOnce (h : Coherent rt w)
    (hd : ∀ raw script, ev.input = .ok raw → scriptOf rt (usedInput w raw) = .ok script →
      ∀ old, w.mem.script = some old → DigestTells rt old script) :
    Coherent rt (applyOnce rt path ev w).2 := by
  have ho := applyOnce_outcome rt path ev w
  generalize applyOnce rt path ev w = r at ho
  cases ho with
  | unreadable e hin => exact coherent_fail h
  | unresolved raw hin hu => exact coherent_fail (coherent_prepared h)
  | kept raw script hin hsc hu hup =>
    obtain ⟨old, hold, -, htext⟩ := upToDate_script h hup (hd raw script hin hsc)
    have hp : Coherent rt (prepared rt w raw) := coherent_prepared h
    unfold keepTable
    dsimp only
    split
    · exact coherent_persistReported hp.toRemembered ⟨old, hold, htext⟩
    · exact hp
  | loading raw script hin hsc hu =>
    unfold loadTable
    split
    · exact coherent_fail (coherent_prepared h)
    · refine coherent_persistReported ⟨?_, rfl, fun sc hsc => Or.inr hsc, rfl, ?_⟩
        ⟨script, rfl, rfl⟩
      · simp [loadedScript, hsc, Except.toOption]
      · intro id l hl
        dsimp only at hl
        split at hl
        · exact ⟨_, rfl, ‹_›, hl⟩
        · cases hl

/-- The world of a new applier: nothing remembered, any table, any boot file. -/
def started (kernel : Option Script) (boot : Option String) : World :=
  ⟨Memory.initial, kernel, boot, [], []⟩

inductive Event
  | apply (ev : Apply)
  | flush

/-- One apply, or a flush of the kernel table from outside. -/
inductive Step (rt : Runtime) (path : String) : World → Event → World → Prop
  | apply (w : World) (ev : Apply) : Step rt path w (.apply ev) (applyOnce rt path ev w).2
  | flush (w : World) : Step rt path w .flush { w with kernel := none }

/-- The digest tells the script of an apply from the remembered one. -/
def NoCollision (rt : Runtime) (w : World) : Event → Prop
  | .apply ev => ∀ raw script, ev.input = .ok raw → scriptOf rt (usedInput w raw) = .ok script →
      ∀ old, w.mem.script = some old → DigestTells rt old script
  | .flush => True

theorem coherent_step {e : Event} (hs : Step rt path w e w') (hd : NoCollision rt w e)
    (h : Coherent rt w) : Coherent rt w' := by
  cases hs with
  | apply ev => exact coherent_applyOnce h hd
  | flush => exact coherent_flush h

theorem coherent_run {events : List Event}
    (hr : Run (Guarded (Step rt path) (NoCollision rt)) w events w') (h : Coherent rt w) :
    Coherent rt w' :=
  hr.guarded_invariant (fun _ _ _ => coherent_step) h

/-- The script an apply generates. -/
def Generates (rt : Runtime) (w : World) (ev : Apply) (script : Script) : Prop :=
  ∃ raw, ev.input = .ok raw ∧ scriptOf rt (usedInput w raw) = .ok script

/-- An apply attempts one write of its own script, or leaves the warning alone. -/
theorem applyOnce_writes (rt : Runtime) (path : String) (ev : Apply) (w : World) :
    (∃ script, Generates rt w ev script ∧ (applyOnce rt path ev w).2.writes = script.text ::
      w.writes) ∨
      (applyOnce rt path ev w).2.writes = w.writes ∧
      (applyOnce rt path ev w).2.mem.persistError = w.mem.persistError ∧
      ((applyOnce rt path ev w).1.ok = true → w.mem.persisted.isSome = true) := by
  have ho := applyOnce_outcome rt path ev w
  generalize applyOnce rt path ev w = r at ho ⊢
  cases ho with
  | unreadable e hin => exact Or.inr ⟨rfl, rfl, nofun⟩
  | unresolved raw hin hu => exact Or.inr ⟨rfl, rfl, nofun⟩
  | kept raw script hin hsc hu hup =>
    unfold keepTable
    cases hp : w.mem.persisted with
    | none => exact Or.inl ⟨script, ⟨raw, hin, hsc⟩, by simp [prepared, hp]⟩
    | some _ => exact Or.inr ⟨by simp [prepared, hp], by simp [prepared, hp], fun _ => rfl⟩
  | loading raw script hin hsc hu =>
    unfold loadTable
    cases ev.faults.nft with
    | none => exact Or.inl ⟨script, ⟨raw, hin, hsc⟩, by simp [prepared]⟩
    | some e => exact Or.inr ⟨rfl, rfl, nofun⟩

/-- Later writes only come on top, and without one the warning stays. -/
def Undisturbed (w w' : World) : Prop :=
  w.writes <:+ w'.writes ∧ (w'.writes = w.writes → w'.mem.persistError = w.mem.persistError)

theorem Undisturbed.trans {w'' : World} (h : Undisturbed w w') (h' : Undisturbed w' w'') :
    Undisturbed w w'' := by
  refine ⟨h.1.trans h'.1, fun heq => ?_⟩
  have hmid : w'.writes = w.writes := (heq ▸ h'.1).eq_of_length_le h.1.length_le
  exact (h'.2 (heq.trans hmid.symm)).trans (h.2 hmid)

theorem undisturbed_step {e : Event} (hs : Step rt path w e w') : Undisturbed w w' := by
  cases hs with
  | flush => exact ⟨List.suffix_rfl, fun _ => rfl⟩
  | apply ev =>
    rcases applyOnce_writes rt path ev w with ⟨script, -, hw⟩ | ⟨hw, he, -⟩
    · exact ⟨hw ▸ List.suffix_cons _ _, fun heq => absurd (hw.symm.trans heq) (by simp)⟩
    · exact ⟨hw ▸ List.suffix_rfl, fun _ => he⟩

theorem undisturbed_run {events : List Event} (hr : Run (Step rt path) w events w') :
    Undisturbed w w' :=
  hr.related (fun _ => ⟨List.suffix_rfl, fun _ => rfl⟩) (fun h h' => h.trans h') fun _ _ _ =>
    undisturbed_step

/-- A failed write is attempted again by the next apply that succeeds. -/
theorem write_retried (h : Coherent rt w) (he : w.mem.persistError.isSome = true)
    (hok : (applyOnce rt path ev w).1.ok = true) :
    ∃ script, Generates rt w ev script ∧ (applyOnce rt path ev w).2.writes = script.text ::
      w.writes := by
  rcases applyOnce_writes rt path ev w with hw | ⟨-, -, hp⟩
  · exact hw
  · have := hp hok
    simp [h.untried he] at this

/-- What one apply owes the three copies. -/
structure ThreeCopies (rt : Runtime) (path : String) (w : World) (ev : Apply) (r : Result)
    (w' : World) :
    Prop where
  loaded : r.ok = true → ∃ script, Generates rt w ev script ∧
    w'.kernel.map Script.text = some script.text
  left : r.ok = false → w'.kernel = w.kernel ∧ w'.mem.hash = w.mem.hash ∧
    w'.mem.script = w.mem.script ∧ w'.mem.appliedPairs = w.mem.appliedPairs
  reported : r.snapshot.appliedPairs = loadedPairs rt w'.loads ∧
    w'.mem.script = loadedScript rt w'.loads
  booted : r.ok = true → w'.boot = w'.kernel.map Script.text ∨
    ∃ e, w'.mem.persistError = some e ∧ .persistFailed path e ∈ r.snapshot.warnings

theorem applyOnce_snapshot (rt : Runtime) (path : String) (ev : Apply) (w : World) :
    (applyOnce rt path ev w).1.snapshot = snapshot path (applyOnce rt path ev w).2.mem := by
  have ho := applyOnce_outcome rt path ev w
  generalize applyOnce rt path ev w = r at ho ⊢
  cases ho with
  | unreadable e hin => rfl
  | unresolved raw hin hu => rfl
  | kept raw script hin hsc hu hup => rfl
  | loading raw script hin hsc hu =>
    unfold loadTable
    cases ev.faults.nft <;> rfl

/-- A successful apply ends with its own script in the kernel, and remembers the table there. -/
theorem applyOnce_loaded (h : Coherent rt w) (hd : NoCollision rt w (.apply ev))
    (hok : (applyOnce rt path ev w).1.ok = true) :
    ∃ script sc, Generates rt w ev script ∧ (applyOnce rt path ev w).2.mem.script = some sc ∧
      (applyOnce rt path ev w).2.kernel = some sc ∧ sc.text = script.text := by
  have ho := applyOnce_outcome rt path ev w
  generalize applyOnce rt path ev w = r at ho hok ⊢
  cases ho with
  | unreadable e hin => simp at hok
  | unresolved raw hin hu => simp at hok
  | kept raw script hin hsc hu hup =>
    obtain ⟨old, hold, hkernel, htext⟩ := upToDate_script h hup (hd raw script hin hsc)
    refine ⟨script, old, ⟨raw, hin, hsc⟩, ?_, ?_, htext⟩
    · unfold keepTable
      cases hp : w.mem.persisted <;> simpa [prepared, hp] using hold
    · unfold keepTable
      cases hp : w.mem.persisted <;> simpa [prepared, hp] using hkernel
  | loading raw script hin hsc hu =>
    refine ⟨script, script, ⟨raw, hin, hsc⟩, ?_, ?_, rfl⟩
    all_goals
      unfold loadTable at hok ⊢
      cases hf : ev.faults.nft with
      | none => simp
      | some e => simp [hf] at hok

theorem applyOnce_left (hok : (applyOnce rt path ev w).1.ok = false) :
    (applyOnce rt path ev w).2.kernel = w.kernel ∧
      (applyOnce rt path ev w).2.mem.hash = w.mem.hash ∧
      (applyOnce rt path ev w).2.mem.script = w.mem.script ∧
      (applyOnce rt path ev w).2.mem.appliedPairs = w.mem.appliedPairs := by
  have ho := applyOnce_outcome rt path ev w
  generalize applyOnce rt path ev w = r at ho hok ⊢
  cases ho with
  | unreadable e hin => exact ⟨rfl, rfl, rfl, rfl⟩
  | unresolved raw hin hu => exact ⟨rfl, rfl, rfl, rfl⟩
  | kept raw script hin hsc hu hup => simp [keepTable_ok] at hok
  | loading raw script hin hsc hu =>
    unfold loadTable at hok ⊢
    cases hf : ev.faults.nft with
    | none => simp [hf] at hok
    | some e => exact ⟨rfl, rfl, rfl, rfl⟩

theorem threeCopies_applyOnce (h : Coherent rt w) (hd : NoCollision rt w (.apply ev)) :
    ThreeCopies rt path w ev (applyOnce rt path ev w).1 (applyOnce rt path ev w).2 := by
  have h' : Coherent rt (applyOnce rt path ev w).2 := coherent_applyOnce h hd
  refine ⟨fun hok => ?_, applyOnce_left, ?_, fun hok => ?_⟩
  · obtain ⟨script, sc, hg, -, hk, ht⟩ := applyOnce_loaded h hd hok
    exact ⟨script, hg, by rw [hk, ← ht]; rfl⟩
  · rw [applyOnce_snapshot]
    exact ⟨h'.applied, h'.source⟩
  · obtain ⟨script, sc, -, hs, hk, -⟩ := applyOnce_loaded h hd hok
    rcases h'.warned (by simp [hs]) with hp | he
    · obtain ⟨sc', hs', hb⟩ := h'.boot hp
      obtain rfl : sc = sc' := Option.some.inj (hs.symm.trans hs')
      exact Or.inl (by rw [hb, hk]; rfl)
    · obtain ⟨e, he⟩ := Option.isSome_iff_exists.mp he
      refine Or.inr ⟨e, he, ?_⟩
      rw [applyOnce_snapshot]
      simp [snapshot, warnings, he]

/-- The three copies agree after every apply of every run, and a write that failed
is attempted again by the next apply that succeeds. -/
theorem copies_agree {kernel : Option Script} {boot : Option String} {events : List Event}
    (hr : Run (Guarded (Step rt path) (NoCollision rt)) (started kernel boot) events w)
    (hd : NoCollision rt w (.apply ev)) :
    (snapshot path w.mem).appliedPairs = loadedPairs rt w.loads ∧
      let r := applyOnce rt path ev w
      ThreeCopies rt path w ev r.1 r.2 ∧
        ∀ events' later ev', Run (Guarded (Step rt path) (NoCollision rt)) r.2 events' later →
          r.2.mem.persistError.isSome = true → later.writes = r.2.writes →
          (applyOnce rt path ev' later).1.ok = true →
          ∃ script, Generates rt later ev' script ∧
            (applyOnce rt path ev' later).2.writes = script.text :: later.writes := by
  have h : Coherent rt w := coherent_run hr coherent_initial
  refine ⟨h.applied, threeCopies_applyOnce h hd, ?_⟩
  intro events' later ev' hr' he hsame hok
  have hlater : Coherent rt later := coherent_run hr' (coherent_applyOnce h hd)
  exact write_retried hlater ((undisturbed_run hr'.of_guarded).2 hsame ▸ he) hok

def sampleTable : String :=
  match buildSiteIsolationNft sampleRuntime samplePairs sampleLinks with
  | .ok script => script.text
  | .error _ => ""

/-- The sample runtime, with the digest of the sample table. -/
def digestRuntime : Runtime := { sampleRuntime with
  sha256Hex := fun s =>
    if s = sampleTable then "b55c0eaca9e0cb285a7486838cd679a595171925163c7b420d7736752670b5dc"
    else sampleRuntime.sha256Hex s }

def sampleApply (persist : Option String) : Apply :=
  ⟨false, .ok ⟨samplePairs, sampleLinks⟩, { Faults.none with persist }, 0⟩

/-- A first apply whose boot copy fails, a flush, and the apply after it. -/
theorem copies_agree_sample :
    let w := started none none
    let r := applyOnce digestRuntime "sites.nft" (sampleApply (some "EACCES")) w
    let later := { r.2 with kernel := none }
    ThreeCopies digestRuntime "sites.nft" w (sampleApply (some "EACCES")) r.1 r.2 ∧
      ∃ script, Generates digestRuntime later (sampleApply none) script ∧
        (applyOnce digestRuntime "sites.nft" (sampleApply none) later).2.writes =
          script.text :: later.writes := by
  intro w r later
  have hfirst : NoCollision digestRuntime w (.apply (sampleApply (some "EACCES"))) :=
    fun _ _ _ _ _ h => nomatch h
  have hstart : Run (Guarded (Step digestRuntime "sites.nft") (NoCollision digestRuntime))
      (started none none) [] w := .nil _
  obtain ⟨-, h, hretry⟩ := copies_agree hstart hfirst
  have hflush : Run (Guarded (Step digestRuntime "sites.nft") (NoCollision digestRuntime))
      r.2 [.flush] later := .single ⟨.flush _, trivial⟩
  refine ⟨h, hretry _ later (sampleApply none) hflush ?_ ?_ ?_⟩
  · decide +kernel
  · dsimp only [later]
  · decide +kernel

end FloppyGuard.SiteIsolation
