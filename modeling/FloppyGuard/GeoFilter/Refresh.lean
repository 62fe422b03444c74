import FloppyGuard.GeoFilter.Conf
import FloppyGuard.Lib.Run

/-! The refresh of the generated conf (`refresh` and `save` of `geo-filter.js`): one job at a time
downloads the list, and a step ends at an await. -/
namespace FloppyGuard.GeoFilter

/-- `MIN_ROWS` -/
def minRows : ℕ := 200000

inductive Phase
  /-- the list of this month is being downloaded -/
  | first
  /-- the list of the month before -/
  | second
  /-- the conf is written -/
  | reloading
deriving DecidableEq

/-- A running job, with the countries it has read at its start. -/
structure Job where
  id : ℕ
  countries : List (List Char)
  reload : Bool
  phase : Phase

/-- A call of `save` that has stored its selection; `pending` is the job it waits for. -/
structure Save where
  countries : List (List Char)
  changed : Bool
  pending : Option ℕ

/-- `settings` is the list in the settings file, `lists` are the texts that have been downloaded. -/
structure State where
  settings : Option (List (List Char))
  conf : Option (List Line)
  processing : Option Job
  jobs : ℕ
  lists : List (List Char)
  saves : List Save

def readSettings (s : State) : List (List Char) :=
  match s.settings.map normalizeCountries with
  | some (.ok countries) => countries
  | _ => defaultCountries

def State.ensureConf (s : State) (stand : List Char) : State :=
  match s.conf with
  | some _ => s
  | none => { s with conf := some (renderConf [] (readSettings s) stand false) }

/-- `aged` is whether the file is missing or older than a week. -/
def stale (aged : Bool) (s : State) : Bool :=
  let info := readConfInfo s.conf
  aged || info.fallback || info.format ≠ confFormat || info.countries ≠ readSettings s

/-- The job the caller waits for, and the state. -/
def refresh (force aged reload : Bool) (s : State) : Option ℕ × State :=
  match s.processing with
  | some job => (some job.id, s)
  | none =>
    if !force && !stale aged s then (none, s)
    else
      (some s.jobs,
        { s with processing := some ⟨s.jobs, readSettings s, reload, .first⟩, jobs := s.jobs + 1 })

def save (input : List (List Char)) (reload : Bool) (s : State) : State :=
  match normalizeCountries input with
  | .error _ => s
  | .ok countries =>
    let before := readSettings s
    let s := { s with settings := some countries }
    if countries ≠ before then
      let (pending, s) := refresh true true reload s
      { s with saves := s.saves ++ [⟨countries, true, pending⟩] }
    else { s with saves := s.saves ++ [⟨countries, false, none⟩] }

/-- The conf for a downloaded list. -/
def generate (csvText : List Char) (countries : List (List Char)) (stand : List Char) :
    Except String (List Line) := do
  let parsed ← parseDbip csvText countries
  if parsed.rows < minRows then
    .error ("Nur " ++ toString parsed.rows ++ " Zeilen – Liste unplausibel")
  else
    let empty := countries.filter fun c => parsed.perCountry c = 0
    if empty.length = countries.length then .error "Keine Netze für die gewählten Länder gefunden"
    else .ok (renderConf parsed.ranges.eraseDups countries stand true)

/-- A job ends with its download. -/
def fail (s : State) (stand : List Char) : State := { s.ensureConf stand with processing := none }

def downloaded (s : State) (job : Job) (csvText stand : List Char) : State :=
  let s := { s with lists := csvText :: s.lists }
  match generate csvText job.countries stand with
  | .error _ => fail s stand
  | .ok text =>
    let (changed, conf) := writeIfChanged s.conf text
    { s with
      conf := conf,
      processing := if changed && job.reload then some { job with phase := .reloading } else none }

inductive Act
  | save (input : List (List Char)) (reload : Bool)
  /-- also that of the timer -/
  | refresh (force aged reload : Bool)
  /-- the list of this month is not there yet -/
  | missing
  | download (csvText stand : List Char)
  | downloadFails (stand : List Char)
  /-- the reload is over, or has failed -/
  | reloaded
  /-- the `i`th save returns -/
  | resolve (i : ℕ)

def step (s : State) : Act → Option State
  | .save input reload => some (save input reload s)
  | .refresh force aged reload => some (refresh force aged reload s).2
  | .missing =>
    match s.processing with
    | some ⟨id, countries, reload, .first⟩ =>
      some { s with processing := some ⟨id, countries, reload, .second⟩ }
    | _ => none
  | .download csvText stand =>
    match s.processing with
    | some job => if job.phase = .reloading then none else some (downloaded s job csvText stand)
    | none => none
  | .downloadFails stand =>
    match s.processing with
    | some job => if job.phase = .reloading then none else some (fail s stand)
    | none => none
  | .reloaded =>
    match s.processing with
    | some job => if job.phase = .reloading then some { s with processing := none } else none
    | none => none
  | .resolve i =>
    match s.saves[i]? with
    | some call =>
      match call.pending with
      | some id =>
        if s.processing.any fun job => job.id = id then none
        else some { s with saves := s.saves.set i { call with pending := none } }
      | none => none
    | none => none

variable {s t : State} {a : Act} {acts : List Act} {job : Job}
  {countries input out : List (List Char)} {csvText stand : List Char}
  {text : List Line} {call : Save} {reload : Bool}

/-! The conf of a selection. -/

/-- The conf on disk is what a downloaded list gives for the countries, but for the time. -/
def ConfFor (s : State) (countries : List (List Char)) : Prop :=
  ∃ conf ∈ s.conf, ∃ csvText ∈ s.lists, ∃ stand text, generate csvText countries stand = .ok text ∧
    body conf = body text

theorem writeIfChanged_spec {file : Option (List Line)} :
    ∃ conf ∈ (writeIfChanged file text).2, body conf = body text := by
  unfold writeIfChanged
  split
  · next hsame =>
    obtain ⟨conf, hconf, hbody⟩ := (Option.any_eq_true _ _).mp hsame
    exact ⟨conf, hconf, of_decide_eq_true hbody⟩
  · exact ⟨text, rfl, rfl⟩

/-- A whole list: every line is a row, and there are enough of them. -/
def WholeList (csvText : List Char) (rows : List Row) : Prop :=
  List.Forall₂ IsRow ((csvText.splitOn '\n').filter (· ≠ [])) rows ∧ minRows ≤ rows.length

/-- A whole list with a row of the countries gives a conf. -/
theorem generate_ok {rows : List Row} (hlist : WholeList csvText rows)
    (hrow : ∃ row ∈ rows, row.country ∈ countries) :
    ∃ text, generate csvText countries stand = .ok text := by
  obtain ⟨row, hmem, hcountry⟩ := hrow
  unfold generate
  rw [parseDbip_rows hlist.1]
  refine ⟨_, (if_neg (Nat.not_lt.mpr hlist.2)).trans (if_neg fun hall => ?_)⟩
  rw [List.length_filter_eq_length_iff] at hall
  have hnone := of_decide_eq_true (hall _ hcountry)
  rw [List.length_eq_zero_iff, List.filter_eq_nil_iff] at hnone
  exact hnone row hmem (decide_eq_true ⟨hcountry, rfl⟩)

theorem generate_eq_ok (h : generate csvText countries stand = .ok text) :
    ∃ ranges, text = renderConf ranges countries stand true := by
  unfold generate at h
  cases hparsed : parseDbip csvText countries with
  | error e =>
    rw [hparsed] at h
    cases h
  | ok parsed =>
    rw [hparsed] at h
    change (if _ then _ else _) = _ at h
    split at h
    · cases h
    split at h
    · cases h
    · exact ⟨_, (Except.ok.inj h).symm⟩

/-- Downloads bring a whole list. -/
def Succeeds : Act → Prop
  | .download csvText _ => ∃ rows, WholeList csvText rows
  | .downloadFails _ => False
  | _ => True

/-- A save that changes the selection meets no job that has read another one, and the list has a
network for one of the countries of the job. -/
def Current (s : State) : Act → Prop
  | .save input _ =>
    ∀ out, normalizeCountries input = .ok out → out ≠ readSettings s → ∀ job ∈ s.processing,
      job.countries = out
  | .download csvText _ =>
    ∀ job ∈ s.processing, ∃ rows, WholeList csvText rows ∧ ∃ row ∈ rows, row.country ∈ job.countries
  | _ => True

/-- A job works for the stored selection, and the conf is the one for the last save that has changed
it, unless the job it waits for is still running. -/
structure Inv (s : State) : Prop where
  current : ∀ job ∈ s.processing, job.countries = readSettings s ∧
    (job.phase = .reloading → ConfFor s job.countries)
  last : ∀ call ∈ s.saves.getLast?, readSettings s = call.countries ∧
    (call.changed = true → (∃ job ∈ s.processing, call.pending = some job.id) ∨
      ConfFor s call.countries)

theorem readSettings_stored (h : normalizeCountries input = .ok out) :
    readSettings { s with settings := some out } = out := by
  have hsame := normalizeCountries_of_ok h
  unfold readSettings
  rw [Option.map_some, hsame]

theorem Inv.begin (h : Inv s) (hnone : s.processing = none) :
    Inv { s with
      processing := some ⟨s.jobs, readSettings s, reload, .first⟩, jobs := s.jobs + 1 } where
  current job hjob := by
    obtain rfl := Option.some.inj hjob
    exact ⟨rfl, fun hphase => Phase.noConfusion hphase⟩
  last call hcall := by
    obtain ⟨hsettings, hconf⟩ := h.last call hcall
    refine ⟨hsettings, fun hchanged => .inr ?_⟩
    rcases hconf hchanged with ⟨job, hjob, -⟩ | hconf
    · rw [hnone] at hjob
      cases hjob
    · exact hconf

theorem Inv.refresh {force aged : Bool} (h : Inv s) :
    Inv (GeoFilter.refresh force aged reload s).2 := by
  unfold GeoFilter.refresh
  split
  · exact h
  · next hnone =>
    split
    · exact h
    · exact h.begin hnone

/-- A changed selection is stored, and its job is there. -/
theorem Inv.changed (h : Inv s) (hout : normalizeCountries input = .ok out)
    (hok : ∀ job ∈ s.processing, job.countries = out) :
    let r := GeoFilter.refresh true true reload { s with settings := some out }
    Inv { r.2 with saves := r.2.saves ++ [⟨out, true, r.1⟩] } := by
  have hread : ∀ s : State, readSettings { s with settings := some out } = out :=
    fun _ => readSettings_stored hout
  unfold GeoFilter.refresh
  dsimp only
  split
  · next job hjob =>
    constructor
    · intro job' hjob'
      have hcountries := hok job' hjob'
      exact ⟨hcountries.trans (hread s).symm, (h.current job' hjob').2⟩
    · intro call hcall
      rw [List.getLast?_concat] at hcall
      obtain rfl := Option.some.inj hcall
      exact ⟨hread s, fun _ => .inl ⟨job, hjob, rfl⟩⟩
  · constructor
    · intro job hjob
      obtain rfl := Option.some.inj hjob
      exact ⟨rfl, fun hphase => Phase.noConfusion hphase⟩
    · intro call hcall
      rw [List.getLast?_concat] at hcall
      obtain rfl := Option.some.inj hcall
      exact ⟨hread s, fun _ => .inl ⟨_, rfl, rfl⟩⟩

theorem Inv.save (h : Inv s) (hok : Current s (.save input reload)) :
    Inv (GeoFilter.save input reload s) := by
  unfold GeoFilter.save
  split
  · exact h
  · next out hout =>
    dsimp only
    split
    · next hchanged => exact h.changed hout (hok out hout hchanged)
    · next hsame =>
      have hread : readSettings { s with settings := some out } = readSettings s :=
        (readSettings_stored hout).trans (not_not.mp hsame)
      constructor
      · intro job hjob
        obtain ⟨hcountries, hconf⟩ := h.current job hjob
        exact ⟨hcountries.trans hread.symm, hconf⟩
      · intro call hcall
        rw [List.getLast?_concat] at hcall
        obtain rfl := Option.some.inj hcall
        exact ⟨readSettings_stored (s := s) hout, fun hchanged => Bool.noConfusion hchanged⟩

/-- A download writes the conf for the stored selection. -/
theorem Inv.downloaded (h : Inv s) (hjob : s.processing = some job)
    (htext : generate csvText job.countries stand = .ok text) :
    Inv (GeoFilter.downloaded s job csvText stand) := by
  have hcountries := (h.current job hjob).1
  unfold GeoFilter.downloaded
  dsimp only
  rw [htext]
  dsimp only
  have hconf : ∀ t : State, t.conf = (writeIfChanged s.conf text).2 → t.lists = csvText :: s.lists →
      ConfFor t job.countries := by
    intro t hfile hlists
    obtain ⟨conf, hmem, hbody⟩ : ∃ conf ∈ (writeIfChanged s.conf text).2, body conf = body text :=
      writeIfChanged_spec
    exact ⟨conf, hfile ▸ hmem, csvText, hlists ▸ List.mem_cons_self, stand, text, htext, hbody⟩
  constructor
  · intro job' hjob'
    dsimp only at hjob'
    split at hjob'
    · obtain rfl := Option.some.inj hjob'
      exact ⟨hcountries, fun _ => hconf _ rfl rfl⟩
    · cases hjob'
  · intro call hcall
    obtain ⟨hsettings, -⟩ := h.last call hcall
    have hsame : job.countries = call.countries := hcountries.trans hsettings
    exact ⟨hsettings, fun _ => .inr (hsame ▸ hconf _ rfl rfl)⟩

theorem Inv.reloaded (h : Inv s) (hjob : s.processing = some job)
    (hphase : job.phase = .reloading) :
    Inv { s with processing := none } where
  current _ hnone := by cases hnone
  last call hcall := by
    obtain ⟨hsettings, hconf⟩ := h.last call hcall
    obtain ⟨hcountries, hwritten⟩ := h.current job hjob
    have hsame : job.countries = call.countries := hcountries.trans hsettings
    exact ⟨hsettings, fun _ => .inr (hsame ▸ hwritten hphase)⟩

theorem Inv.resolve {i id : ℕ} (h : Inv s) (hcall : s.saves[i]? = some call)
    (hpending : call.pending = some id)
    (hended : ∀ job ∈ s.processing, job.id ≠ id) :
    Inv { s with saves := s.saves.set i { call with pending := none } } where
  current := h.current
  last call' hcall' := by
    have hlt : i < s.saves.length := (List.getElem?_eq_some_iff.mp hcall).1
    dsimp only at hcall'
    rw [List.getLast?_eq_getElem?, List.length_set, List.getElem?_set, if_pos hlt] at hcall'
    split at hcall'
    · next hi =>
      obtain rfl := Option.some.inj hcall'
      have hlast : call ∈ s.saves.getLast? := by
        rw [List.getLast?_eq_getElem?, ← hi]
        exact hcall
      obtain ⟨hsettings, hconf⟩ := h.last call hlast
      refine ⟨hsettings, fun hchanged => .inr ?_⟩
      rcases hconf hchanged with ⟨job, hjob, hid⟩ | hconf
      · exact absurd (Option.some.inj (hid.symm.trans hpending)) (hended job hjob)
      · exact hconf
    · exact h.last call' (by rw [List.getLast?_eq_getElem?]; exact hcall')

theorem Inv.step (h : Inv s) (hs : step s a = some t) (hdownload : Succeeds a) (hok : Current s a) :
    Inv t := by
  unfold GeoFilter.step at hs
  split at hs
  · exact Option.some.inj hs ▸ h.save hok
  · exact Option.some.inj hs ▸ h.refresh
  · split at hs
    · next id countries reload hjob =>
      obtain rfl := Option.some.inj hs
      obtain ⟨hcountries, -⟩ := h.current _ hjob
      constructor
      · intro job hjob'
        obtain rfl := Option.some.inj hjob'
        exact ⟨hcountries, fun hphase => Phase.noConfusion hphase⟩
      · intro call hcall
        obtain ⟨hsettings, hconf⟩ := h.last call hcall
        refine ⟨hsettings, fun hchanged => (hconf hchanged).imp_left ?_⟩
        rintro ⟨job, hjob', hid⟩
        obtain rfl := Option.some.inj (hjob.symm.trans hjob')
        exact ⟨_, rfl, hid⟩
    · cases hs
  · next csvText stand =>
    split at hs
    · next job hjob =>
      split at hs
      · cases hs
      · obtain rfl := Option.some.inj hs
        obtain ⟨rows, hrows, hrow⟩ := hok job hjob
        obtain ⟨text, htext⟩ : ∃ text, generate csvText job.countries stand = .ok text :=
          generate_ok hrows hrow
        exact h.downloaded hjob htext
    · cases hs
  · exact hdownload.elim
  · split at hs
    · next job hjob =>
      split at hs
      · next hphase => exact Option.some.inj hs ▸ h.reloaded hjob hphase
      · cases hs
    · cases hs
  · split at hs
    · next call hcall =>
      split at hs
      · next id hpending =>
        split at hs
        · cases hs
        · next hended =>
          refine Option.some.inj hs ▸ h.resolve hcall hpending fun job hjob hid => hended ?_
          rw [hjob]
          exact decide_eq_true hid
      · cases hs
    · cases hs

/-- Nothing is running yet. -/
structure Start (s : State) : Prop where
  processing : s.processing = none
  saves : s.saves = []

theorem Start.inv (h : Start s) : Inv s := by
  constructor
  · rw [h.processing]
    intro job hjob
    cases hjob
  · rw [h.saves]
    intro call hcall
    cases hcall

/-- The last save that has changed the selection and has returned: the conf on disk is the one for
its selection. -/
theorem selection_takes_effect (hstart : Start s)
    (hrun : Run (Guarded (fun s a t => step s a = some t) fun s a => Succeeds a ∧ Current s a) s
      acts t)
    (hlast : t.saves.getLast? = some call) (hchanged : call.changed = true)
    (hreturned : call.pending = none) :
    ConfFor t call.countries := by
  have hinv : Inv t := by
    refine hrun.guarded_invariant ?_ hstart.inv
    intro s a t hs hok h
    exact h.step hs hok.1 hok.2
  obtain ⟨-, hconf⟩ := hinv.last call hlast
  rcases hconf hchanged with ⟨job, -, hpending⟩ | hconf
  · rw [hreturned] at hpending
    cases hpending
  · exact hconf

/-! A list that is long enough, and runs with it. -/

theorem normalizeCountries_singleton {c : List Char} (h : isIsoCode c = true) :
    normalizeCountries [c] = .ok [c] := by
  unfold normalizeCountries
  simp [normalizeCode_iso h, h, maxCountries]

def austria : List Char := "AT".toList

def switzerland : List Char := "CH".toList

def sampleLine (country : List Char) : Line := "2.0.0.0,2.0.0.255,".toList ++ country

def sampleRow (country : List Char) : Row := ⟨.v4, ⟨33554432, 33554687, by decide⟩, country⟩

def wholeCsv : List Char :=
  ['\n'].intercalate (sampleLine switzerland :: List.replicate minRows (sampleLine austria))

def wholeRows : List Row := sampleRow switzerland :: List.replicate minRows (sampleRow austria)

theorem forall₂_replicate {α β : Type*} {r : α → β → Prop} {x : α} {y : β} (h : r x y) (n : ℕ) :
    List.Forall₂ r (List.replicate n x) (List.replicate n y) := by
  induction n with
  | zero => exact .nil
  | succ n ih => exact .cons h ih

theorem sampleLine_row : IsRow (sampleLine switzerland) (sampleRow switzerland) ∧
    IsRow (sampleLine austria) (sampleRow austria) := by
  have hlo : AddressText .v4 "2.0.0.0".toList 33554432 :=
    AddressText.v4 (a := 2) (b := 0) (c := 0) (d := 0) (by decide) (by decide) (by decide)
      (by decide)
  have hhi : AddressText .v4 "2.0.0.255".toList 33554687 :=
    AddressText.v4 (a := 2) (b := 0) (c := 0) (d := 255) (by decide) (by decide) (by decide)
      (by decide)
  exact ⟨⟨_, _, by decide +kernel, hlo, hhi, by decide⟩,
    ⟨_, _, by decide +kernel, hlo, hhi, by decide⟩⟩

theorem wholeCsv_list : WholeList wholeCsv wholeRows := by
  have hlines : ∀ l ∈ sampleLine switzerland :: List.replicate minRows (sampleLine austria),
      l ≠ [] ∧ '\n' ∉ l := by
    intro l hl
    rcases List.mem_cons.mp hl with rfl | hl
    · decide
    · rw [List.eq_of_mem_replicate hl]
      decide
  have hfilter : (wholeCsv.splitOn '\n').filter (· ≠ []) =
      sampleLine switzerland :: List.replicate minRows (sampleLine austria) := by
    rw [wholeCsv, List.splitOn_intercalate _ (fun l hl => (hlines l hl).2) (List.cons_ne_nil _ _),
      List.filter_eq_self]
    exact fun l hl => decide_eq_true (hlines l hl).1
  constructor
  · rw [hfilter]
    exact .cons sampleLine_row.1 (forall₂_replicate sampleLine_row.2 minRows)
  · rw [wholeRows, List.length_cons, List.length_replicate]
    exact Nat.le_succ _

theorem wholeCsv_text (countries : List (List Char))
    (h : austria ∈ countries ∨ switzerland ∈ countries) :
    ∃ text, generate wholeCsv countries [] = .ok text := by
  refine generate_ok wholeCsv_list ?_
  rcases h with h | h
  · exact ⟨sampleRow austria, List.mem_cons_of_mem _ (List.mem_replicate.mpr ⟨by decide, rfl⟩), h⟩
  · exact ⟨sampleRow switzerland, List.mem_cons_self, h⟩

/-- No file but the settings. -/
def sampleState : State := ⟨some [austria], none, none, 0, [], []⟩

theorem sampleState_start : Start sampleState := ⟨rfl, rfl⟩

theorem readSettings_singleton {c : List Char} (h : isIsoCode c = true)
    (hs : s.settings = some [c]) : readSettings s = [c] := by
  unfold readSettings
  rw [hs, Option.map_some, normalizeCountries_singleton h]

/-- The first conf that is written is the rendered one. -/
theorem downloaded_first (hconf : s.conf = none) (hreload : job.reload = false)
    (htext : generate csvText job.countries stand = .ok text) :
    downloaded s job csvText stand =
      { s with lists := csvText :: s.lists, conf := some text, processing := none } := by
  unfold downloaded
  simp [htext, hconf, hreload, writeIfChanged]

theorem austria_ne_switzerland : [switzerland] ≠ [austria] := by decide

/-- A save whose job nobody else has started. -/
def saving (countries : List (List Char)) : State :=
  ⟨some countries, none, some ⟨0, countries, false, .first⟩, 1, [], [⟨countries, true, some 0⟩]⟩

theorem save_saving : save [switzerland] false sampleState = saving [switzerland] := by
  have hbefore : readSettings sampleState = [austria] := readSettings_singleton (by decide) rfl
  have hread : readSettings { sampleState with settings := some [switzerland] } = [switzerland] :=
    readSettings_singleton (by decide) rfl
  unfold save
  rw [normalizeCountries_singleton (by decide)]
  dsimp only
  rw [hbefore, if_pos austria_ne_switzerland]
  unfold refresh
  simp [sampleState, saving] at hread ⊢
  exact hread

theorem selection_takes_effect_sample : ∃ (t : State) (call : Save), t.saves.getLast? = some call ∧
    call.countries = [switzerland] ∧ call.changed = true ∧ call.pending = none ∧
    ConfFor t call.countries := by
  obtain ⟨text, htext⟩ := wholeCsv_text [switzerland] (.inr List.mem_cons_self)
  have hsave : step sampleState (.save [switzerland] false) = some (saving [switzerland]) :=
    congrArg some save_saving
  have hwritten : step (saving [switzerland]) (.download wholeCsv []) =
      some
        { saving [switzerland] with lists := [wholeCsv], conf := some text, processing := none } :=
    congrArg some (downloaded_first rfl rfl htext)
  have hrun : Run (Guarded (fun s a t => step s a = some t) fun s a => Succeeds a ∧ Current s a)
    sampleState
      [.save [switzerland] false, .download wholeCsv [], .resolve 0]
      { saving [switzerland] with
        lists := [wholeCsv], conf := some text, processing := none, saves :=
          [⟨[switzerland], true, none⟩] } := by
    refine .cons ⟨hsave, trivial, fun out _ _ job hjob => ?_⟩
      (.cons ⟨hwritten, ⟨wholeRows, wholeCsv_list⟩, fun job hjob => ?_⟩
        (.single ⟨rfl, trivial, trivial⟩))
    · cases hjob
    · obtain rfl := Option.some.inj hjob
      exact ⟨wholeRows, wholeCsv_list, _, List.mem_cons_self, List.mem_cons_self⟩
  exact ⟨_, _, rfl, rfl, rfl, rfl, selection_takes_effect sampleState_start hrun rfl rfl rfl⟩

/-- The third line of the conf names the countries. -/
theorem body_renderConf (ranges countries : List (List Char)) (stand : List Char)
    (complete : Bool) :
    (body (renderConf ranges countries stand complete))[2]? = some
    (headerCountries ++ [','].intercalate countries) := by
  unfold body renderConf
  simp only [List.cons_append]
  rw [List.filter_cons_of_pos (by decide +kernel), List.filter_cons_of_pos (by decide),
    List.filter_cons_of_pos rfl]
  rfl

/-- A refresh has read the old selection when the new one is saved. -/
def joining (countries : List (List Char)) : State :=
  ⟨some countries, none, some ⟨0, [austria], false, .first⟩, 1, [], [⟨countries, true, some 0⟩]⟩

theorem selection_does_not_take_effect : Start sampleState ∧ ∃ t call,
    Run (Guarded (fun s a t => step s a = some t) fun _ a => Succeeds a) sampleState
      [.refresh false true false, .save [switzerland] false, .download wholeCsv [], .resolve 0] t ∧
    t.saves = [call] ∧ call.countries = [switzerland] ∧ call.changed = true ∧ call.pending = none ∧
    ¬ConfFor t call.countries := by
  obtain ⟨text, htext⟩ := wholeCsv_text [austria] (.inl List.mem_cons_self)
  have hbefore : ∀ s : State, s.settings = some [austria] → readSettings s = [austria] :=
    fun _ => readSettings_singleton (by decide)
  have hrefresh : step sampleState (.refresh false true false) =
      some { sampleState with processing := some ⟨0, [austria], false, .first⟩, jobs := 1 } := by
    have hread := hbefore sampleState rfl
    change some (refresh false true false sampleState).2 = _
    unfold refresh
    simp [sampleState, stale] at hread ⊢
    exact hread
  have hsave : step { sampleState with processing := some ⟨0, [austria], false, .first⟩, jobs := 1 }
      (.save [switzerland] false) = some (joining [switzerland]) := by
    change some (save _ _ _) = _
    unfold save
    rw [normalizeCountries_singleton (by decide)]
    dsimp only
    rw [hbefore _ rfl, if_pos austria_ne_switzerland]
    rfl
  have hwritten : step (joining [switzerland]) (.download wholeCsv []) =
      some
        { joining [switzerland] with lists := [wholeCsv], conf := some text, processing := none } :=
    congrArg some (downloaded_first rfl rfl htext)
  refine ⟨sampleState_start, { joining [switzerland] with
    lists := [wholeCsv], conf := some text, processing := none, saves :=
      [⟨[switzerland], true, none⟩] }, _,
    .cons ⟨hrefresh, trivial⟩
      (.cons ⟨hsave, trivial⟩
        (.cons ⟨hwritten, ⟨wholeRows, wholeCsv_list⟩⟩ (.single ⟨rfl, trivial⟩))),
    rfl, rfl, rfl, rfl, ?_⟩
  rintro ⟨conf, hconf, csvText, -, stand, text', htext', hbody⟩
  obtain rfl : text = conf := Option.some.inj hconf
  have hthird := congrArg (·[2]?) hbody
  obtain ⟨ranges, rfl⟩ := generate_eq_ok htext
  obtain ⟨ranges', rfl⟩ := generate_eq_ok htext'
  dsimp only at hthird
  rw [body_renderConf, body_renderConf] at hthird
  revert hthird
  decide

end FloppyGuard.GeoFilter
