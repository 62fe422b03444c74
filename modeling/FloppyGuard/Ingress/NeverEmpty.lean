import FloppyGuard.Ingress.Sanitize
import FloppyGuard.Lib.Run

/-! A restricted agent keeps an enabled rule that passes its own validation and emits ACCEPT lines.
-/
namespace FloppyGuard.Ingress

open Checked

variable {a b : Agent} {r : Rule} {clean : RulePatch} {d : RulePayload} {t : Table}
  {xs : List String}
  {n now : ℕ}

/-- A stored rule, sent again. -/
def Rule.payload (r : Rule) : RulePayload where
  name := .value r.name
  sources := .value (.array r.sources)
  destinations := .value (.array r.destinations)
  ports := .value (.array (r.ports.map Port.entry))
  enabled := .value (.bool r.enabled)
  note := r.note.elim .null .value

/-- The stored fields pass `sanitizeIngressRule`. -/
def Sanitizes (r : Rule) : Prop := ∃ clean, sanitizeIngressRule r.payload false = .ok clean

/-- Alone on a restricted agent without direct links, the rule yields an ACCEPT line. -/
def EmitsAccept (r : Rule) : Prop :=
  ∀ iface, isWgIface iface = true →
    ∃ out src dst port, buildIngressRestore ⟨.restricted, iface, [], []⟩ [r] = .ok (some out) ∧
      .rule src dst iface port r.id .accept ∈ out.lines

/-! A sanitized rule emits ACCEPT lines. -/

/-- A usable rule has a line on every filtered interface. -/
theorem exists_line {inp : FilterInput} {sources destinations : List Cidr} {iface : String}
    (hu : Usable r sources destinations) (hi : iface ∈ inp.ifaces) :
    ∃ src dst port, .rule src dst iface port r.id inp.target ∈ ruleLines inp r := by
  obtain ⟨src, hsrc⟩ := List.exists_mem_of_ne_nil sources hu.nonempty
  have horAny {α : Type} (xs : List α) : ∃ o, o ∈ orAny xs :=
    List.exists_mem_of_length_pos (by rw [length_orAny]; omega)
  obtain ⟨dst, hdst⟩ := horAny destinations
  obtain ⟨p, hp⟩ := horAny r.ports
  refine ⟨src, dst, p, ?_⟩
  rw [ruleLines_usable hu, expand]
  refine List.mem_flatMap.mpr
    ⟨src, hsrc, List.mem_flatMap.mpr ⟨dst, hdst, List.mem_flatMap.mpr ⟨p, hp, ?_⟩⟩⟩
  exact List.mem_append_left _ (List.mem_map_of_mem hi)

theorem mem_restoreOf {inp : FilterInput} {rules : List Rule} {ln : Line} (hr : r ∈ rules)
    (hen : r.enabled = true) (hl : ln ∈ ruleLines inp r) : ln ∈ (restoreOf inp rules).lines := by
  have hactive : r ∈ activeRules rules :=
    activeRules_perm.mem_iff.mpr (List.mem_filter.mpr ⟨hr, hen⟩)
  have hall : ln ∈ allRuleLines inp rules := List.mem_flatMap.mpr ⟨r, hactive, hl⟩
  simp [restoreOf, hall]

/-- The builder takes every sanitized rule. -/
theorem usable_row {id : ℕ} (armedOn : ℕ) (h : sanitizeIngressRule d false = .ok clean)
    (hid : 1 ≤ id) :
    ∃ sources destinations, Usable (clean.row id armedOn) sources destinations :=
  usable_of_stored (stored_row id armedOn h) hid

theorem lines_row (id armedOn : ℕ) (h : sanitizeIngressRule d false = .ok clean) :
    ruleLineCount (clean.row id armedOn) ≤ maxLinesPerRule := by
  obtain ⟨name, sources, destinations, ports, -, -, -, -, hlines, rfl⟩ :=
    sanitizeIngressRule_full.mp h
  exact hlines

theorem emitsAccept_row {id : ℕ} (armedOn : ℕ) (h : sanitizeIngressRule d false = .ok clean)
    (hid : 1 ≤ id)
    (hen : clean.enabled = some true) : EmitsAccept (clean.row id armedOn) := by
  obtain ⟨ss, ds, hu⟩ := usable_row armedOn h hid
  have hlines := lines_row id armedOn h
  have henabled : (clean.row id armedOn).enabled = true := by rw [RulePatch.row, hen]; rfl
  generalize clean.row id armedOn = r at hu hlines henabled
  intro iface hiface
  have hactive : activeRules [r] = [r] := by simp [activeRules, henabled]
  have husable : ∀ q ∈ activeRules [r], ∃ sources destinations, Usable q sources destinations := by
    rw [hactive]
    rintro q hq
    obtain rfl := List.mem_singleton.mp hq
    exact ⟨ss, ds, hu⟩
  have hb : Buildable ⟨.restricted, iface, [], []⟩ [r] :=
    { needed := fun hopen => nomatch hopen.1
      wg := hiface
      direct := nofun
      few := by simp [hactive, maxRulesPerAgent]
      usable := husable
      fits := by
        have hlen : (ruleLines ⟨.restricted, iface, [], []⟩ r).length = _ := length_ruleLines hu
        rw [aliasLines_eq_zero rfl, FilterInput.ifaces, List.length_singleton] at hlen
        simp only [allRuleLines, hactive, List.flatMap_singleton, hlen, maxLinesTotal]
        unfold maxLinesPerRule at hlines
        omega }
  have hi : iface ∈ FilterInput.ifaces ⟨.restricted, iface, [], []⟩ := List.mem_cons_self
  obtain ⟨src, dst, port, hl⟩ := exists_line hu hi
  exact ⟨_, src, dst, port, buildIngressRestore_of_buildable hb,
    mem_restoreOf List.mem_cons_self henabled hl⟩

/-! What the operations store sanitizes again. -/

theorem sanitizes_iff : Sanitizes r ↔ ∃ name sources destinations ports,
    sanitizeName (.value r.name) = .ok name ∧
      sanitizeCidrList "sources" (.value (.array r.sources)) false = .ok sources ∧
      sanitizeCidrList "destinations" (.value (.array r.destinations)) true = .ok destinations ∧
      sanitizePorts (.value (.array (r.ports.map Port.entry))) = .ok ports ∧
      lineCount sources destinations ports ≤ maxLinesPerRule := by
  simp only [Sanitizes, sanitizeIngressRule_full, Rule.payload]
  constructor
  · rintro ⟨_, name, sources, destinations, ports, hn, hs, hd, hp, hl, rfl⟩
    exact ⟨name, sources, destinations, ports, hn, hs, hd, hp, hl⟩
  · rintro ⟨name, sources, destinations, ports, hn, hs, hd, hp, hl⟩
    exact ⟨_, name, sources, destinations, ports, hn, hs, hd, hp, hl, rfl⟩

/-- Switching a rule or arming it changes no field that is validated. -/
theorem Sanitizes.switched (h : Sanitizes r) (enabled : Bool) (armed : Option ℕ) :
    Sanitizes { r with enabled := enabled, armedOn := armed } := by
  rw [sanitizes_iff] at h ⊢
  exact h

theorem sanitizes_row (id armedOn : ℕ) (h : sanitizeIngressRule d false = .ok clean) :
    Sanitizes (clean.row id armedOn) := by
  have hc := sanitizeIngressRule_clean h
  obtain ⟨name, sources, destinations, ports, -, -, -, -, hlines, rfl⟩ :=
    sanitizeIngressRule_full.mp h
  obtain ⟨hs, hne⟩ := hc.sources sources rfl
  obtain ⟨name', hname⟩ := sanitizeName_self (hc.name name rfl)
  exact sanitizes_iff.mpr ⟨name', sources, destinations, ports, hname,
    sanitizeCidrList_self hs fun _ => hne,
    sanitizeCidrList_self (hc.destinations _ rfl) nofun, sanitizePorts_self (hc.ports _ rfl),
      hlines⟩

/-- An array that passes, with a result that is no longer than it. -/
def Passes {α β : Type} (check : Field (JsonList α) → Except String (List β))
    (send : List β → List α)
    (xs : List β) : Prop :=
  ∃ out, check (.value (.array (send xs))) = .ok out ∧ out.length ≤ xs.length

theorem passes_getD {α β : Type} {check : Field (JsonList α) → Except String (List β)}
    {send : List β → List α}
    {o : Option (List β)} {xs : List β} (hxs : Passes check send xs)
    (ho : ∀ ys ∈ o, check (.value (.array (send ys))) = .ok ys) :
    Passes check send (o.getD xs) := by
  cases o with
  | none => exact hxs
  | some ys => exact ⟨ys, ho ys rfl, Nat.le_refl _⟩

theorem length_sanitizeCidrList {field : String} {allowEmpty : Bool} {out : List String}
    (h : sanitizeCidrList field (.value (.array xs)) allowEmpty = .ok out) :
    out.length ≤ xs.length := by
  simp only [sanitizeCidrList] at h
  split at h
  · cases h
  · obtain ⟨cs, hcs, h⟩ := bind_eq_ok.mp h
    obtain ⟨rfl, -⟩ := nonEmpty_ok h
    exact (collectNew_spec hcs).2.1

theorem length_sanitizePorts {ps : List PortEntry} {out : List Port}
    (h : sanitizePorts (.value (.array ps)) = .ok out) : out.length ≤ ps.length := by
  simp only [sanitizePorts] at h
  split at h
  · cases h
  · exact (collectNew_spec h).2.1

theorem lineCount_mono {s s' d d' : List String} {p p' : List Port} (hs : s.length ≤ s'.length)
    (hd : d.length ≤ d'.length) (hp : p.length ≤ p'.length) :
    lineCount s d p ≤ lineCount s' d' p' :=
  Nat.mul_le_mul (Nat.mul_le_mul hs (by omega)) (by omega)

/-- A partial update leaves a rule that sanitizes when it leaves one that is small enough. -/
theorem Sanitizes.merge (h : Sanitizes r) (hc : Clean clean)
    (hgrow : updateCanGrow clean = true → ruleLineCount (clean.merge r) ≤ maxLinesPerRule) :
    Sanitizes (clean.merge r) := by
  obtain ⟨name, sources, destinations, ports, hn, hs, hd, hp, hl⟩ := sanitizes_iff.mp h
  have hname : ∃ name', sanitizeName (.value (clean.name.getD r.name)) = .ok name' := by
    cases hcn : clean.name with
    | none => exact ⟨name, hn⟩
    | some given => exact sanitizeName_self (hc.name given hcn)
  obtain ⟨name', hname⟩ := hname
  have hsources : Passes (sanitizeCidrList "sources" · false) id (clean.sources.getD r.sources) :=
    passes_getD ⟨sources, hs, length_sanitizeCidrList hs⟩ fun ys hys =>
      sanitizeCidrList_self (hc.sources ys hys).1 fun _ => (hc.sources ys hys).2
  have hdests : Passes (sanitizeCidrList "destinations" · true) id
      (clean.destinations.getD r.destinations) :=
    passes_getD ⟨destinations, hd, length_sanitizeCidrList hd⟩ fun ys hys =>
      sanitizeCidrList_self (hc.destinations ys hys) nofun
  have hports : Passes sanitizePorts (List.map Port.entry) (clean.ports.getD r.ports) :=
    passes_getD ⟨ports, hp, by simpa using length_sanitizePorts hp⟩ fun ys hys =>
      sanitizePorts_self (hc.ports ys hys)
  obtain ⟨sources', hs', hslen⟩ := hsources
  obtain ⟨destinations', hd', hdlen⟩ := hdests
  obtain ⟨ports', hp', hplen⟩ := hports
  refine sanitizes_iff.mpr ⟨name', sources', destinations', ports', hname, hs', hd', hp', ?_⟩
  cases hg : updateCanGrow clean with
  | true => exact Nat.le_trans (lineCount_mono hslen hdlen hplen) (hgrow hg)
  | false =>
    -- nothing that is counted changes
    simp only [updateCanGrow, Bool.or_eq_false_iff, Option.isSome_eq_false_iff,
      Option.isNone_iff_eq_none] at hg
    obtain ⟨⟨⟨hs0, hd0⟩, hp0⟩, -⟩ := hg
    rw [hs0] at hs'
    rw [hd0] at hd'
    rw [hp0] at hp'
    obtain rfl := Except.ok.inj (hs.symm.trans hs')
    obtain rfl := Except.ok.inj (hd.symm.trans hd')
    obtain rfl := Except.ok.inj (hp.symm.trans hp')
    exact hl

/-! The invariant. -/

structure Sound (a : Agent) : Prop where
  sanitizes : ∀ r ∈ a.rules, Sanitizes r
  notEmpty : a.ingressMode = .restricted → ∃ r ∈ a.rules, r.enabled = true

theorem create_sound {data : RulePayload} (h : create n now data a = .ok (r, b)) (hs : Sound a) :
    Sound b := by
  obtain ⟨clean, hclean, -, -, rfl⟩ := create_ok h
  constructor
  · intro q hq
    rcases Rows.mem_insert.mp hq with hq | rfl
    · exact hs.sanitizes q hq
    · exact sanitizes_row _ _ hclean
  · intro hm
    obtain ⟨q, hq, hen⟩ := hs.notEmpty hm
    exact ⟨q, Rows.mem_insert.mpr (Or.inl hq), hen⟩

theorem update_sound {ruleId : ℕ} {data : RulePayload} (h : update n now ruleId data a = .ok (r, b))
    (hs : Sound a) : Sound b := by
  obtain ⟨clean, existing, hclean, hfind, hgrow, hmode, rfl⟩ := update_ok h
  constructor
  · intro q hq
    obtain ⟨p, hp, rfl⟩ := List.mem_map.mp hq
    split
    · rename_i hid
      obtain rfl := Rows.eq_of_find hfind hp (by simpa using hid)
      exact ((hs.sanitizes p hp).merge (sanitizeIngressRule_clean hclean) fun hg =>
        (hgrow hg).1).switched _ _
    · exact hs.sanitizes p hp
  · intro hm
    obtain ⟨q, hq, hen⟩ := hmode hm
    obtain ⟨p, hp, rfl⟩ := List.mem_map.mp hq
    refine ⟨_, List.mem_map_of_mem hp, ?_⟩
    split at hen
    · rename_i hid
      obtain rfl := Rows.eq_of_find hfind hp hid
      rw [if_pos (decide_eq_true hid)]
      exact hen
    · rename_i hid
      rw [if_neg (by simpa using hid)]
      exact hen

theorem delete_sound {ruleId : ℕ} (h : delete ruleId a = .ok b) (hs : Sound a) : Sound b := by
  obtain ⟨hmode, rfl⟩ := delete_ok h
  exact ⟨fun q hq => hs.sanitizes q (List.mem_filter.mp hq).1, hmode⟩

theorem setMode_sound {mode : String} (h : setMode n mode a = .ok b) (hs : Sound a) : Sound b := by
  obtain ⟨m, -, hmode, -, rfl⟩ := setMode_ok h
  exact ⟨hs.sanitizes, hmode⟩

theorem createBulk_sound {list : JsonList RulePayload} {reply : BulkReply}
    (h : createBulk n now list a = .ok (reply, b)) (hs : Sound a) : Sound b := by
  obtain ⟨cleans, fresh, reIds, hlist, rfl, rfl, -, -, rfl⟩ := createBulk_ok h
  constructor
  · intro q hq
    obtain ⟨p, hp, rfl⟩ := List.mem_map.mp hq
    have hsan : Sanitizes p := by
      rcases mem_insertAll hp with hp | ⟨clean, hclean, id, rfl⟩
      · exact hs.sanitizes p hp
      · obtain ⟨e, he, rfl⟩ := List.mem_map.mp hclean
        obtain ⟨d, hd⟩ := sanitizeBulkList_ok hlist e.2 (mem_bulkDedupe he)
        exact sanitizes_row _ _ hd
    split
    · exact hsan.switched true (some now)
    · exact hsan
  · intro hm
    obtain ⟨q, hq, hen⟩ := hs.notEmpty hm
    refine ⟨_, List.mem_map_of_mem (mem_insertAll_of_mem hq), ?_⟩
    split
    · rfl
    · exact hen

theorem disableBulk_sound {ids : JsonList IdEntry} {allowed : Option (List ℕ)} {ruleIds : List ℕ}
    (h : disableBulk ids allowed a = .ok (ruleIds, b)) (hs : Sound a) : Sound b := by
  obtain ⟨-, hmode, rfl⟩ := disableBulk_ok h
  constructor
  · intro q hq
    obtain ⟨p, hp, rfl⟩ := List.mem_map.mp hq
    split
    · exact (hs.sanitizes p hp).switched false p.armedOn
    · exact hs.sanitizes p hp
  · intro hm
    obtain ⟨q, hq, hen⟩ := hmode hm
    obtain ⟨p, hp, rfl⟩ := List.mem_map.mp hq
    refine ⟨_, List.mem_map_of_mem hp, ?_⟩
    simpa using hen

theorem serve_sound {req : Request} (h : serve n now a req = .ok b) (hs : Sound a) : Sound b := by
  cases req with
  | create data =>
    obtain ⟨⟨r, b⟩, hop, rfl⟩ := map_eq_ok.mp h
    exact create_sound hop hs
  | update ruleId data =>
    obtain ⟨⟨r, b⟩, hop, rfl⟩ := map_eq_ok.mp h
    exact update_sound hop hs
  | delete ruleId => exact delete_sound h hs
  | createBulk list =>
    obtain ⟨⟨reply, b⟩, hop, rfl⟩ := map_eq_ok.mp h
    exact createBulk_sound hop hs
  | disableBulk ids allowed =>
    obtain ⟨⟨ruleIds, b⟩, hop, rfl⟩ := map_eq_ok.mp h
    exact disableBulk_sound hop hs
  | setMode mode => exact setMode_sound h hs

theorem sound_step {e : Event} (h : Step a e b) (hs : Sound a) : Sound b := by
  cases h with
  | accepted h => exact serve_sound h hs
  | refused => exact hs
  | elsewhere => exact ⟨hs.sanitizes, hs.notEmpty⟩

theorem sound_run {es : List Event} (h : Run Step a es b) (hs : Sound a) : Sound b :=
  h.invariant (fun _ _ _ => sound_step) hs

/-- The rule's lines in a chain the builder emits. -/
theorem exists_line_of_build {inp : FilterInput} {rules : List Rule} {out : Restore}
    {iface : String}
    (hbuild : buildIngressRestore inp rules = .ok (some out)) (hr : r ∈ rules)
    (hen : r.enabled = true)
    (hi : iface ∈ inp.ifaces) :
    ∃ src dst port, .rule src dst iface port r.id inp.target ∈ out.lines := by
  obtain ⟨hb, rfl⟩ := buildIngressRestore_some hbuild
  have hactive : r ∈ activeRules rules :=
    activeRules_perm.mem_iff.mpr (List.mem_filter.mpr ⟨hr, hen⟩)
  obtain ⟨ss, ds, hu⟩ := hb.usable r hactive
  obtain ⟨src, dst, port, hl⟩ := exists_line hu hi
  exact ⟨src, dst, port, mem_restoreOf hr hen hl⟩

/-- Whatever requests run in whatever order, a restricted agent has an enabled rule; its stored
fields sanitize to a rule that emits an ACCEPT line, and so does the rule itself, on every interface
of every filter built for the agent. -/
theorem restricted_never_empty {es : List Event} (h : Run Step a es b)
    (hsan : ∀ r ∈ a.rules, Sanitizes r)
    (hmode : a.ingressMode = .open_ ∨ ∃ r ∈ a.rules, r.enabled = true)
    (hb : b.ingressMode = .restricted) :
    ∃ r ∈ b.rules, r.enabled = true ∧
      (∃ clean, sanitizeIngressRule r.payload false = .ok clean ∧
        ∀ armedOn, EmitsAccept (clean.row r.id armedOn)) ∧
      ∀ inp out, inp.ingressMode = .restricted → buildIngressRestore inp b.rules = .ok (some out) →
        ∀ iface ∈ inp.ifaces, ∃ src dst port, .rule src dst iface port r.id .accept ∈
          out.lines := by
  have hsound : Sound a := by
    refine ⟨hsan, fun hm => ?_⟩
    rcases hmode with hopen | hen
    · rw [hopen] at hm
      cases hm
    · exact hen
  have hsoundb := sound_run h hsound
  obtain ⟨r, hr, hen⟩ := hsoundb.notEmpty hb
  obtain ⟨clean, hclean⟩ := hsoundb.sanitizes r hr
  have henabled : clean.enabled = some true := by
    obtain ⟨name, sources, destinations, ports, -, -, -, -, -, rfl⟩ :=
      sanitizeIngressRule_full.mp hclean
    simp [Rule.payload, sanitizeEnabled, hen]
  refine ⟨r, hr, hen, ⟨clean, hclean, fun armedOn =>
    emitsAccept_row armedOn hclean (b.table.ids r hr).1 henabled⟩, fun inp out hm hbuild iface hi =>
      ?_⟩
  have htarget : inp.target = .accept := by rw [FilterInput.target, if_pos hm]
  exact htarget ▸ exists_line_of_build hbuild hr hen hi

/-- An open agent with one Freigabe. -/
def sampleAgent : Agent where
  ingressMode := .open_
  table :=
    { rows := [⟨1, "Web", ["10.10.0.0/24"], [], [⟨"tcp", "80:443"⟩], true, none, some 5⟩]
      nextId := 2
      sorted := List.pairwise_singleton _ _
      ids := by decide
      pos := Nat.two_pos }

theorem restricted_never_empty_sample :
    ∃ b : Agent, b.ingressMode = .restricted ∧
      Run Step sampleAgent [.request 2 9 (.setMode " restricted"), .request 2 9 (.delete 1)] b ∧
      ∃ r ∈ b.rules, r.enabled = true ∧ ∃ clean, sanitizeIngressRule r.payload false = .ok clean ∧
        ∀ armedOn, EmitsAccept (clean.row r.id armedOn) := by
  have hset : serve 2 9 sampleAgent (.setMode " restricted") =
      .ok { sampleAgent with ingressMode := .restricted } := rfl
  have hdelete : serve 2 9 { sampleAgent with ingressMode := .restricted } (.delete 1) =
      .error (.validation
        "Mindestens eine aktive Freigabe ist nötig, solange der Agent auf „nur Freigaben“ steht") :=
          rfl
  have hrun : Run Step sampleAgent [.request 2 9 (.setMode " restricted"), .request 2 9 (.delete 1)]
      { sampleAgent with ingressMode := .restricted } :=
    .cons (.accepted hset) (.cons (.refused hdelete) (.nil _))
  have hsan : ∀ r ∈ sampleAgent.rules, Sanitizes r := by
    intro r hr
    obtain rfl := List.mem_singleton.mp hr
    exact sanitizes_iff.mpr ⟨"Web", ["10.10.0.0/24"], [], [⟨"tcp", "80:443"⟩],
      by decide, by decide, by decide,
      by decide, by decide⟩
  obtain ⟨r, hr, hen, hclean, -⟩ := restricted_never_empty hrun hsan (Or.inl rfl) rfl
  exact ⟨_, rfl, hrun, r, hr, hen, hclean⟩

/-- A rule from before the limits, with 7 · 7 · 6 lines. -/
def oversizedRule : Rule where
  id := 1
  name := "Alt"
  sources :=
    ["10.1.0.0/24", "10.2.0.0/24", "10.3.0.0/24", "10.4.0.0/24", "10.5.0.0/24", "10.6.0.0/24",
      "10.7.0.0/24"]
  destinations :=
    ["10.11.0.0/24", "10.12.0.0/24", "10.13.0.0/24", "10.14.0.0/24", "10.15.0.0/24", "10.16.0.0/24",
      "10.17.0.0/24"]
  ports :=
    [⟨"tcp", "80"⟩, ⟨"tcp", "81"⟩, ⟨"tcp", "82"⟩, ⟨"tcp", "83"⟩, ⟨"tcp", "84"⟩, ⟨"tcp", "85"⟩]
  enabled := true
  note := none
  armedOn := some 5

def oversizedAgent : Agent where
  ingressMode := .open_
  table :=
    { rows := [oversizedRule]
      nextId := 2
      sorted := List.pairwise_singleton _ _
      ids := by decide
      pos := Nat.two_pos }

theorem oversizedRule_refused : ¬ Sanitizes oversizedRule := by
  rintro ⟨clean, hclean⟩
  have hnone : (sanitizeIngressRule oversizedRule.payload false).toOption.isNone = true := by
    decide +kernel
  rw [hclean] at hnone
  cases hnone

/-- An agent whose only rule is from before the limits can be switched to restricted. -/
theorem restricted_oversized : ¬ ∀ (a b : Agent) (es : List Event), Run Step a es b →
    (a.ingressMode = .open_ ∨ ∃ r ∈ a.rules, r.enabled = true) → b.ingressMode = .restricted →
      ∃ r ∈ b.rules, r.enabled = true ∧ ∃ clean, sanitizeIngressRule r.payload false = .ok clean ∧
        ∀ armedOn, EmitsAccept (clean.row r.id armedOn) := by
  intro h
  have hset : serve 2 9 oversizedAgent (.setMode "restricted") =
      .ok { oversizedAgent with ingressMode := .restricted } := rfl
  have hrun : Run Step oversizedAgent [.request 2 9 (.setMode "restricted")]
      { oversizedAgent with ingressMode := .restricted } :=
    .single (.accepted hset)
  obtain ⟨r, hr, -, clean, hclean, -⟩ := h _ _ _ hrun (.inl rfl) rfl
  obtain rfl := List.mem_singleton.mp hr
  exact oversizedRule_refused ⟨clean, hclean⟩

end FloppyGuard.Ingress
