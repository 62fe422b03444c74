import FloppyGuard.Ingress.Pickers
import FloppyGuard.Lib.Run

/-! The rule form as its user sees it: the ports of the form, the picker or the plain field, and
what is saved (`RuleForm.tsx`, `PortPicker.tsx`). -/
namespace FloppyGuard.Ingress.Form

open Text

/-- `ports`: the empty text is all ports, `none` is no choice yet. -/
structure RuleFormValues where
  name : String
  sources : String
  destinations : String
  ports : Option String
  note : String
  enabled : Bool
  deriving DecidableEq

def emptyForm : RuleFormValues := ⟨"", "", "", none, "", true⟩

def ruleToForm (rule : Rule) : RuleFormValues where
  name := rule.name
  sources := ", ".intercalate rule.sources
  destinations := ", ".intercalate rule.destinations
  ports := some (formatPorts rule.ports)
  note := rule.note.getD ""
  enabled := rule.enabled

/-- The plain field. -/
def textPorts (text : String) : Option String := if trim text.toList ≠ [] then some text else none

structure RuleData where
  name : String
  sources : List String
  destinations : List String
  ports : List Port
  enabled : Bool
  note : String

def formToData (values : RuleFormValues) : RuleData where
  name := String.ofList (trim values.name.toList)
  sources := splitList values.sources
  destinations := splitList values.destinations
  ports := match values.ports with
    | none => []
    | some text => (parsePorts text).ports
  enabled := values.enabled
  note := String.ofList (trim values.note.toList)

inductive FormError
  | nameRequired
  | sourcesRequired
  | invalidCidr (value : String)
  | portsRequired
  | invalidPort (value : String)
  deriving DecidableEq

/-- The id of the message in the catalog of texts. -/
def FormError.id : FormError → String
  | .nameRequired => "wireguard.agent.ingress.err.name-required"
  | .sourcesRequired => "wireguard.agent.ingress.err.sources-required"
  | .invalidCidr _ => "wireguard.agent.ingress.err.invalid-cidr"
  | .portsRequired => "wireguard.agent.ingress.err.ports-required"
  | .invalidPort _ => "wireguard.agent.ingress.err.invalid-port"

def validateRuleForm (values : RuleFormValues) (autoName : Bool) : List FormError :=
  (if trim values.name.toList = [] ∧ autoName = false then [.nameRequired] else []) ++
    (if splitList values.sources = [] then [.sourcesRequired] else []) ++
    ((splitList values.sources ++ splitList values.destinations).filter (!isIpv4OrCidr ·)).map
      .invalidCidr ++
    (if values.ports = none then [.portsRequired] else []) ++
    (parsePorts (values.ports.getD "")).invalid.map .invalidPort

/-- What the picker shows of a value when it is mounted. -/
def fromValue (value : Option String) (presets : List Preset) : PortSelection :=
  match value with
  | none => ⟨[], ""⟩
  | some text =>
    if (parsePorts text).ports = [] ∧ (parsePorts text).invalid = [] then
      portsToPresetSelection [] presets
    else
      let sel := portsToPresetSelection (parsePorts text).ports presets
      ⟨sel.presetIds, ", ".intercalate ((sel.custom :: (parsePorts text).invalid).filter (· ≠ ""))⟩

/-- The value the picker emits. -/
def emitted (presets : List Preset) (sel : PortSelection) : Option String :=
  if "all" ∈ sel.presetIds then some ""
  else
    let fromPresets := formatPorts (selectionToPorts sel.presetIds "" presets)
    let text :=
      ", ".intercalate ([fromPresets, String.ofList (trim sel.custom.toList)].filter (· ≠ ""))
    if text = "" then none else some text

/-- The selection after a click on a preset. -/
def toggled (sel : PortSelection) (presetId : String) : PortSelection :=
  let checked := presetId ∉ sel.presetIds
  if presetId = "all" then ⟨if checked then ["all"] else [], if checked then "" else sel.custom⟩
  else
    let others := sel.presetIds.filter fun p => p ≠ "all" ∧ p ≠ presetId
    ⟨if checked then others ++ [presetId] else others, sel.custom⟩

/-- The form, with the picker when there is a catalog, and whether the last event that changed the
ports chose all of them explicitly (`none`: the ports were not touched). -/
structure FormState where
  values : RuleFormValues
  picker : Option PortSelection
  choseAll : Option Bool

inductive Event
  /-- the catalog arrives -/
  | mountPicker
  /-- the catalog goes -/
  | unmountPicker
  | toggle (presetId : String)
  | typeCustom (text : String)
  | typePlain (text : String)
  /-- the checkbox beside the plain field -/
  | clickAll
  /-- the other fields -/
  | typeOther (values : RuleFormValues)

def withPorts (s : FormState) (ports : Option String) (choseAll : Bool) : FormState :=
  { s with values := { s.values with ports := ports }, choseAll := some choseAll }

/-- An event is possible only where its control is shown and not disabled. -/
def step (presets : List Preset) (s : FormState) : Event → Option FormState
  | .mountPicker => some { s with picker := some (fromValue s.values.ports presets) }
  | .unmountPicker => some { s with picker := none }
  | .toggle presetId =>
    match s.picker with
    | none => none
    | some sel =>
      if presetId ∈ presets.map Preset.id then
        let next := toggled sel presetId
        some { withPorts s (emitted presets next) (presetId = "all" ∧ "all" ∉ sel.presetIds) with
            picker := some next }
      else none
  | .typeCustom text =>
    match s.picker with
    | none => none
    | some sel =>
      if "all" ∈ sel.presetIds then none
      else
        let next := ⟨sel.presetIds.filter (· ≠ "all"), text⟩
        some { withPorts s (emitted presets next) false with picker := some next }
  | .typePlain text =>
    if s.picker = none ∧ s.values.ports ≠ some "" then some (withPorts s (textPorts text) false)
      else none
  | .clickAll =>
    if s.picker = none then
      some (withPorts s (if s.values.ports = some "" then none else some "")
          (s.values.ports ≠ some ""))
    else none
  | .typeOther values => some { s with values := { values with ports := s.values.ports } }

/-- An empty form, or that of a stored rule. -/
def start (stored : Option Rule) : FormState := ⟨(stored.map ruleToForm).getD emptyForm, none, none⟩

/-- All ports were chosen: by the last event that changed them, or by the stored rule. -/
def Chosen (stored : Option Rule) (s : FormState) : Prop :=
  s.choseAll = some true ∨ s.choseAll = none ∧ ∃ rule, stored = some rule ∧ rule.ports = []

/-- Whatever is in the other fields, all ports are saved only if they were chosen. -/
def OnlyChosen (stored : Option Rule) (s : FormState) : Prop :=
  ∀ values autoName, values.ports = s.values.ports → validateRuleForm values autoName = [] →
    (formToData values).ports = [] →
    Chosen stored s

/-- A typed text that is not blank has an entry. -/
def HasEntry (text : String) : Prop := splitList text = [] → trim text.toList = []

/-- Where no preset gives a port, the typed text has an entry or is blank. -/
def Filled (presets : List Preset) (sel : PortSelection) : Prop :=
  "all" ∉ sel.presetIds → selectionToPorts sel.presetIds "" presets = [] → HasEntry sel.custom

def EntryTyped (presets : List Preset) (s : FormState) : Event → Prop
  | .toggle presetId => ∀ sel ∈ s.picker, Filled presets (toggled sel presetId)
  | .typeCustom text => ∀ sel ∈ s.picker, Filled presets ⟨sel.presetIds.filter (· ≠ "all"), text⟩
  | .typePlain text => HasEntry text
  | _ => True

variable {presets : List Preset} {stored : Option Rule} {s t : FormState} {e : Event}
  {es : List Event} {text : String}
  {ports : List Port} {sel : PortSelection} {values : RuleFormValues}

/-! A text that is no entry at all is all ports. -/

theorem parsed_empty_iff : (parsePorts text).ports = [] ∧ (parsePorts text).invalid = [] ↔
    splitList text = [] := by
  constructor
  · rintro ⟨hports, hinvalid⟩
    refine List.eq_nil_iff_forall_not_mem.mpr fun entry hentry => ?_
    have hnone := List.filterMap_eq_nil_iff.mp hports entry hentry
    exact List.filter_eq_nil_iff.mp hinvalid entry hentry (by rw [hnone]; rfl)
  · intro h
    rw [parsePorts, h]
    exact ⟨rfl, rfl⟩

/-- The ports of the form are all ports, and validation has nothing to say of them. -/
def Open (ports : Option String) : Prop := ∃ text, ports = some text ∧ splitList text = []

theorem open_of_saved {autoName : Bool} (hvalid : validateRuleForm values autoName = [])
    (hsaved : (formToData values).ports = []) : Open values.ports := by
  simp only [validateRuleForm, List.append_eq_nil_iff, List.map_eq_nil_iff] at hvalid
  cases hports : values.ports with
  | none =>
    rw [hports, if_pos rfl] at hvalid
    cases hvalid.1.2
  | some text =>
    rw [hports] at hvalid
    rw [formToData, hports] at hsaved
    exact ⟨text, rfl, parsed_empty_iff.mp ⟨hsaved, hvalid.2⟩⟩

theorem onlyChosen_iff : OnlyChosen stored s ↔ (Open s.values.ports → Chosen stored s) := by
  constructor
  · rintro h ⟨text, hports, htext⟩
    obtain ⟨hparsed, hinvalid⟩ := parsed_empty_iff.mpr htext
    refine h ⟨"", "10.0.0.1", "", s.values.ports, "", true⟩ true rfl ?_ ?_
    · have hsources : splitList "10.0.0.1" = ["10.0.0.1"] := by decide +kernel
      have hnone : splitList "" = [] := rfl
      have hvalid : isIpv4OrCidr "10.0.0.1" = true := by decide +kernel
      simp [validateRuleForm, hsources, hnone, hvalid, hports, hinvalid]
    · simp [formToData, hports, hparsed]
  · intro h values autoName hsame hvalid hsaved
    exact h (hsame ▸ open_of_saved hvalid hsaved)

theorem slash_mem_formatPorts (h : ports ≠ []) : '/' ∈ (formatPorts ports).toList := by
  obtain ⟨p, ports, rfl⟩ := List.exists_cons_of_ne_nil h
  rw [formatPorts, String.toList_intercalate]
  have hpiece : (portKey p).toList <:+: ", ".toList.intercalate
      (((p :: ports).map portKey).map String.toList) :=
    infix_intercalate (List.mem_map_of_mem (List.mem_map_of_mem List.mem_cons_self))
  refine hpiece.subset ?_
  simp [portKey]

theorem splitList_formatPorts_ne (h : ports ≠ []) : splitList (formatPorts ports) ≠ [] := by
  rw [splitList_eq, ne_eq, List.map_eq_nil_iff, words_eq_nil_iff]
  intro hsep
  exact absurd (hsep '/' (slash_mem_formatPorts h)) (by decide)

theorem formatPorts_ne (h : ports ≠ []) : formatPorts ports ≠ "" := by
  intro he
  have hslash := slash_mem_formatPorts h
  rw [he] at hslash
  cases hslash

theorem open_some_iff : Open (some text) ↔ splitList text = [] := by
  constructor
  · rintro ⟨_, he, h⟩
    exact Option.some.inj he ▸ h
  · exact fun h => ⟨text, rfl, h⟩

theorem not_open_none : ¬ Open none := by
  rintro ⟨_, he, -⟩
  cases he

theorem open_textPorts_iff : Open (textPorts text) ↔ ¬ HasEntry text := by
  rw [textPorts, HasEntry]
  by_cases hblank : trim text.toList = []
  · simp [hblank, not_open_none]
  · simp [hblank, open_some_iff]

/-- What the picker emits is all ports where `all` is chosen, and where a typed text without an
entry is all there is. -/
theorem open_emitted_iff :
    Open (emitted presets sel) ↔ "all" ∈ sel.presetIds ∨ ¬ Filled presets sel := by
  by_cases hall : "all" ∈ sel.presetIds
  · rw [emitted, if_pos hall, open_some_iff]
    exact ⟨fun _ => .inl hall, fun _ => rfl⟩
  have hfilled : ¬ Filled presets sel ↔ selectionToPorts sel.presetIds "" presets = [] ∧
      ¬ HasEntry sel.custom := by
    simp [Filled, hall]
  rw [emitted, if_neg hall, hfilled, or_iff_right hall]
  dsimp only
  by_cases hports : selectionToPorts sel.presetIds "" presets = []
  · have hnone : formatPorts [] = "" := rfl
    rw [hports, hnone, HasEntry]
    by_cases hblank : trim sel.custom.toList = []
    · simp [hblank, not_open_none]
    · have htext : String.ofList (trim sel.custom.toList) ≠ "" :=
        fun he => hblank (by simpa using congrArg String.toList he)
      have hone : ", ".intercalate [String.ofList (trim sel.custom.toList)] =
          String.ofList (trim sel.custom.toList) := rfl
      simp [htext, hone, open_some_iff, splitList_trim, hblank]
  · have hfrom := formatPorts_ne hports
    have hwords := splitList_formatPorts_ne hports
    simp only [hports, false_and, iff_false]
    by_cases htext : String.ofList (trim sel.custom.toList) = ""
    · have hone : ", ".intercalate [formatPorts (selectionToPorts sel.presetIds "" presets)] =
          formatPorts (selectionToPorts sel.presetIds "" presets) := rfl
      simp [hfrom, htext, hone, open_some_iff, hwords]
    · have htwo : ", ".intercalate [formatPorts (selectionToPorts sel.presetIds "" presets),
        String.ofList (trim sel.custom.toList)] =
          formatPorts (selectionToPorts sel.presetIds "" presets) ++ ", " ++
            String.ofList (trim sel.custom.toList) := rfl
      have hne : formatPorts (selectionToPorts sel.presetIds "" presets) ++ ", " ++
          String.ofList (trim sel.custom.toList) ≠ "" := by
        intro he
        have hempty := congrArg String.toList he
        simp at hempty
      simp [hfrom, htext, htwo, hne, open_some_iff, splitList_append, hwords]

/-! One event, and runs. -/

theorem onlyChosen_start : OnlyChosen stored (start stored) := by
  rw [onlyChosen_iff]
  intro hopen
  cases stored with
  | none => exact absurd hopen not_open_none
  | some rule =>
    refine .inr ⟨rfl, rule, rfl, ?_⟩
    by_contra hports
    exact splitList_formatPorts_ne hports (open_some_iff.mp hopen)

/-- After an event that sets the ports, they are all ports only by an explicit choice. -/
theorem onlyChosen_withPorts {ports : Option String} {choseAll : Bool} :
    OnlyChosen stored (withPorts s ports choseAll) ↔ (Open ports → choseAll = true) := by
  rw [onlyChosen_iff]
  refine imp_congr_right fun _ => ?_
  simp [Chosen, withPorts]

theorem all_mem_toggled {presetId : String} :
    "all" ∈ (toggled sel presetId).presetIds ↔ presetId = "all" ∧ "all" ∉ sel.presetIds := by
  unfold toggled
  by_cases hid : presetId = "all"
  · subst hid
    by_cases hmem : "all" ∈ sel.presetIds
    · simp [hmem]
    · simp [hmem]
  · by_cases hmem : presetId ∈ sel.presetIds
    · simp [hid, hmem]
    · simp [hid, hmem, Ne.symm hid]

theorem onlyChosen_step (hs : step presets s e = some t) (h : OnlyChosen stored s) :
    OnlyChosen stored t ↔ EntryTyped presets s e := by
  cases e with
  | mountPicker =>
    cases Option.some.inj hs
    exact iff_true_intro h
  | unmountPicker =>
    cases Option.some.inj hs
    exact iff_true_intro h
  | toggle presetId =>
    cases hp : s.picker with
    | none =>
      rw [step, hp] at hs
      cases hs
    | some sel =>
      rw [step, hp] at hs
      dsimp only at hs
      split at hs
      · obtain rfl := Option.some.inj hs
        change OnlyChosen stored (withPorts s _ _) ↔ ∀ sel ∈ s.picker,
          Filled presets (toggled sel presetId)
        rw [onlyChosen_withPorts, open_emitted_iff, all_mem_toggled, decide_eq_true_eq, hp]
        simp only [Option.mem_some_iff, forall_eq']
        by_cases hall : presetId = "all" ∧ "all" ∉ sel.presetIds
        · have hfilled : Filled presets (toggled sel presetId) :=
            fun hnot => absurd (all_mem_toggled.mpr hall) hnot
          exact ⟨fun _ => hfilled, fun _ _ => hall⟩
        · rw [or_iff_right hall]
          exact ⟨fun himp => by_contra fun hnot => hall (himp hnot), fun hfilled hnot =>
            absurd hfilled hnot⟩
      · cases hs
  | typeCustom text =>
    cases hp : s.picker with
    | none =>
      rw [step, hp] at hs
      cases hs
    | some sel =>
      rw [step, hp] at hs
      dsimp only at hs
      split at hs
      · cases hs
      · obtain rfl := Option.some.inj hs
        change OnlyChosen stored (withPorts s _ _) ↔ ∀ sel ∈ s.picker,
          Filled presets ⟨sel.presetIds.filter (· ≠ "all"), text⟩
        rw [onlyChosen_withPorts, open_emitted_iff, hp]
        simp
  | typePlain text =>
    rw [step] at hs
    split at hs
    · obtain rfl := Option.some.inj hs
      rw [onlyChosen_withPorts, open_textPorts_iff, EntryTyped]
      simp
    · cases hs
  | clickAll =>
    rw [step] at hs
    split at hs
    · obtain rfl := Option.some.inj hs
      rw [onlyChosen_withPorts]
      refine iff_true_intro fun hopen => ?_
      by_cases hall : s.values.ports = some ""
      · rw [if_pos hall] at hopen
        exact absurd hopen not_open_none
      · simpa using hall
    · cases hs
  | typeOther values =>
    obtain rfl := Option.some.inj hs
    rw [onlyChosen_iff] at h ⊢
    exact iff_true_intro h

def Step (presets : List Preset) (s : FormState) (e : Event) (t : FormState) : Prop :=
  step presets s e = some t

/-- Along a run of the form all ports are saved only if they were chosen exactly when no event puts
a text without an entry where no preset gives a port. -/
theorem only_chosen_throughout_iff (h : Run (Step presets) (start stored) es t) :
    (∀ before s, before <+: es → Run (Step presets) (start stored) before s → OnlyChosen stored s) ↔
      Run (Guarded (Step presets) (EntryTyped presets)) (start stored) es t :=
  Run.guarded_iff (J := fun _ => True) (fun hs hs' => Option.some.inj (hs.symm.trans hs'))
    (fun _ _ => trivial)
    (fun hs _ hi => onlyChosen_step hs hi) h trivial onlyChosen_start

theorem only_chosen_throughout_web : (∀ before s, before <+: [Event.typePlain "tcp/443"] →
    Run (Step []) (start none) before s → OnlyChosen none s) ↔
      Run (Guarded (Step []) (EntryTyped [])) (start none) [.typePlain "tcp/443"]
        ⟨⟨"", "", "", some "tcp/443", "", true⟩, none, some false⟩ :=
  only_chosen_throughout_iff (.single rfl)

/-- A comma in the plain field of an empty form is all ports. -/
theorem comma_opens_all_ports :
    ¬ ∀ (presets : List Preset) (stored : Option Rule) (es : List Event) (t : FormState),
    Run (Step presets) (start stored) es t → OnlyChosen stored t := by
  intro h
  have hstep : Step [] (start none) (.typePlain ",") ⟨⟨"", "", "", some ",", "", true⟩, none,
      some false⟩ := rfl
  have honly := onlyChosen_iff.mp (h [] none [.typePlain ","] _ (.single hstep))
  rcases honly (open_some_iff.mpr rfl) with hchose | ⟨hchose, -⟩
  · cases hchose
  · cases hchose

end FloppyGuard.Ingress.Form
