import FloppyGuard.Ingress.Rules
import FloppyGuard.Lib.Run
import FloppyGuard.Lib.Table

/-! The hits of the rules: what an agent counts on its gateway, and what its heartbeats make of the
counts. -/
namespace FloppyGuard.Ingress.HitCounters

/-- What `Number` makes of a sent value. -/
inductive Num
  | finite (q : ℚ)
  | notFinite
  deriving DecidableEq

def maxSafeInteger : ℕ := 9007199254740991

def Num.id? : Num → Option ℕ
  | .finite q => if q.den = 1 ∧ 1 ≤ q.num then some q.num.toNat else none
  | .notFinite => none

def Num.packets? : Num → Option ℕ
  | .finite q => if 0 ≤ q.num then some (min q.floor.toNat maxSafeInteger) else none
  | .notFinite => none

/-- One entry of the sent object. -/
def keep (out : Table ℕ ℕ) (entry : Num × Num) : Table ℕ ℕ :=
  match entry.1.id?, entry.2.packets? with
  | some id, some packets => out.set id packets
  | _, _ => out

def sanitizeIngressCounters (value : List (Num × Num)) : Table ℕ ℕ :=
  (value.take maxRulesPerAgent).foldl keep .empty

structure Row where
  agentId : ℕ
  hitPackets : ℕ
  lastHitAt : Option ℕ
  deriving DecidableEq

/-- `last_hit_at || null` -/
def orNull : Option ℕ → Option ℕ
  | some 0 => none
  | time => time

def delta (row : Row) (packets : ℕ) : ℕ :=
  if packets ≥ row.hitPackets then packets - row.hitPackets else packets

def nextHitState (row : Row) (packets now : ℕ) : Row :=
  { row with
    hitPackets := packets
    lastHitAt := if delta row packets > 0 then some now else orNull row.lastHitAt }

/-- One row of the agent; a row that would not change is left alone. -/
def recordRow (row : Row) (packets now : ℕ) : Row :=
  if row.hitPackets = (nextHitState row packets now).hitPackets ∧
      orNull row.lastHitAt = (nextHitState row packets now).lastHitAt then row
  else nextHitState row packets now

def recordCounters (agent : ℕ) (raw : List (Num × Num)) (now : ℕ) (rows : Table ℕ Row) :
    Table ℕ Row :=
  let counters := sanitizeIngressCounters raw
  rows.filterMap fun id row =>
    match counters.get? id with
    | some packets => some (if row.agentId = agent then recordRow row packets now else row)
    | none => some row

variable {rows : Table ℕ Row} {row row' : Row} {id packets now : ℕ}

/-! What one sample does to one row. -/

theorem delta_pos_iff : 0 < delta row packets ↔ 0 < packets ∧ packets ≠ row.hitPackets := by
  unfold delta
  split <;> omega

theorem hitPackets_recordRow : (recordRow row packets now).hitPackets = packets := by
  unfold recordRow
  split
  · next h => exact h.1
  · rfl

theorem lastHitAt_of_hit (h : 0 < delta row packets) :
    (recordRow row packets now).lastHitAt = some now := by
  have hne := (delta_pos_iff.mp h).2
  have hnot : ¬ (row.hitPackets = packets ∧ orNull row.lastHitAt = some now) :=
    fun hsame => hne hsame.1.symm
  simp [recordRow, nextHitState, h, hnot]

theorem lastHitAt_of_not_hit (h : ¬ 0 < delta row packets) :
    (recordRow row packets now).lastHitAt = if packets = row.hitPackets then row.lastHitAt
    else orNull row.lastHitAt := by
  by_cases hsame : row.hitPackets = packets
  · simp [recordRow, nextHitState, h, hsame]
  · simp [recordRow, nextHitState, h, hsame, Ne.symm hsame]

theorem orNull_eq_self : orNull row.lastHitAt = row.lastHitAt ↔ row.lastHitAt ≠ some 0 := by
  unfold orNull
  split
  · next h => simp [h]
  · next h => simpa using h

/-- A sampled row takes the time of the sample unless the sample is the stored count or zero. -/
theorem lastHitAt_recordRow_eq_now (h : 0 < packets) :
    (recordRow row packets now).lastHitAt = some now ↔
    packets ≠ row.hitPackets ∨ row.lastHitAt = some now := by
  by_cases hne : packets = row.hitPackets
  · have hnot : ¬ 0 < delta row packets := fun hd => (delta_pos_iff.mp hd).2 hne
    rw [lastHitAt_of_not_hit hnot, if_pos hne]
    exact ⟨.inr, fun h => h.resolve_left (not_not_intro hne)⟩
  · rw [lastHitAt_of_hit (delta_pos_iff.mpr ⟨h, hne⟩)]
    exact ⟨fun _ => .inl hne, fun _ => rfl⟩

/-- A sample that is the stored count or zero leaves the time, only a stored zero becomes none. -/
theorem lastHitAt_recordRow_eq_self (h : packets = row.hitPackets ∨ packets = 0) :
    (recordRow row packets now).lastHitAt = row.lastHitAt ↔
      (row.lastHitAt = some 0 → packets = row.hitPackets) := by
  have hnot : ¬ 0 < delta row packets := by
    intro hd
    obtain ⟨hpos, hne⟩ := delta_pos_iff.mp hd
    omega
  rw [lastHitAt_of_not_hit hnot]
  by_cases hsame : packets = row.hitPackets
  · simp [hsame]
  · rw [if_neg hsame, orNull_eq_self]
    exact ⟨fun hz he => absurd he hz, fun himp he => hsame (himp he)⟩

/-! A gateway whose chain has a counter for each rule. -/

structure Gateway where
  agent : ℕ
  chain : List ℕ
  few : chain.length ≤ maxRulesPerAgent
  positive : ∀ id ∈ chain, 1 ≤ id

/-- The rows of the store, the counters of the chain, and the connections that each rule matched
since the later of the last rebuild and the last heartbeat, and since the last heartbeat. -/
structure State where
  rows : Table ℕ Row
  counter : ℕ → ℕ
  recent : ℕ → ℕ
  sinceBeat : ℕ → ℕ

inductive Act
  | connect (id : ℕ)
  | rebuild
  | heartbeat (now : ℕ)
  deriving DecidableEq

variable (g : Gateway)

/-- The counters an agent sends. -/
def sent (counter : ℕ → ℕ) : List (Num × Num) := g.chain.map fun id :
    ℕ => (.finite id, .finite (counter id))

def step (s : State) : Act → State
  | .connect id =>
    { s with
      counter := Function.update s.counter id (s.counter id + 1)
      recent := Function.update s.recent id (s.recent id + 1)
      sinceBeat := Function.update s.sinceBeat id (s.sinceBeat id + 1) }
  | .rebuild => { s with counter := fun _ => 0, recent := fun _ => 0 }
  | .heartbeat now =>
    { s with
      rows := recordCounters g.agent (sent g s.counter) now s.rows
      recent := fun _ => 0
      sinceBeat := fun _ => 0 }

/-- The row of a rule whose counter the agent sends. -/
def Watched (s : State) (id : ℕ) (row : Row) : Prop :=
  id ∈ g.chain ∧ s.rows.get? id = some row ∧ row.agentId = g.agent

/-- What a heartbeat should do to the rows: a hit sets the time, no hit leaves it. -/
def Recorded (s : State) (a : Act) (t : State) : Prop :=
  ∀ now, a = .heartbeat now → ∀ id row row', Watched g s id row → t.rows.get? id = some row' →
    (0 < s.recent id → row'.lastHitAt = some now) ∧
      (s.sinceBeat id = 0 → row'.lastHitAt = row.lastHitAt)

/-- What the store takes a counter for. -/
def sample (s : State) (id : ℕ) : ℕ := min (s.counter id) maxSafeInteger

/-- A heartbeat that finds another count than the stored one where the rule was hit, and no stored
time of zero where the count changed without a hit. -/
def Distinguishable (s : State) (a : Act) : Prop :=
  ∀ now, a = .heartbeat now → ∀ id row, Watched g s id row →
    (0 < s.recent id → sample s id ≠ row.hitPackets ∨ row.lastHitAt = some now) ∧
      (s.sinceBeat id = 0 → row.lastHitAt = some 0 → sample s id = row.hitPackets)

def Step (s : State) (a : Act) (t : State) : Prop := step g s a = t

/-- A chain just built, with any rows in the store. -/
def start (rows : Table ℕ Row) : State := ⟨rows, fun _ => 0, fun _ => 0, fun _ => 0⟩

variable {g} {s t u : State} {acts : List Act} {counter : ℕ → ℕ}

/-! The counters reach the store as they are sent. -/

theorem keep_counter (out : Table ℕ ℕ) (h : 1 ≤ id) :
    keep out (.finite (id : ℕ), .finite (packets : ℕ)) =
      out.set id (min packets maxSafeInteger) := by
  have hid : (Num.finite (id : ℕ)).id? = some id := by
    have hnum : (1 : ℤ) ≤ ((id : ℕ) : ℚ).num := by
      rw [Rat.num_natCast]
      omega
    rw [Num.id?, if_pos ⟨Rat.den_natCast id, hnum⟩, Rat.num_natCast, Int.toNat_natCast]
  have hpackets : (Num.finite (packets : ℕ)).packets? = some (min packets maxSafeInteger) := by
    have hnum : (0 : ℤ) ≤ ((packets : ℕ) : ℚ).num := by
      rw [Rat.num_natCast]
      omega
    have hfloor : ((packets : ℕ) : ℚ).floor = packets := by
      rw [Rat.floor, if_pos (Rat.den_natCast packets), Rat.num_natCast]
    rw [Num.packets?, if_pos hnum, hfloor, Int.toNat_natCast]
  rw [keep, hid, hpackets]

theorem get?_foldl_keep {ids : List ℕ} (hpos : ∀ id ∈ ids, 1 ≤ id) :
    ((ids.map fun id : ℕ => (Num.finite id, Num.finite (counter id))).foldl keep .empty).get? id =
      if id ∈ ids then some (min (counter id) maxSafeInteger) else none := by
  induction ids using List.reverseRecOn with
  | nil => rfl
  | append_singleton ids last ih =>
    have hlast := hpos last (by simp)
    rw [List.map_append, List.foldl_append, List.map_singleton, List.foldl_cons, List.foldl_nil,
      keep_counter _ hlast,
      Table.get?_set, ih fun id hid => hpos id (List.mem_append_left _ hid)]
    by_cases hid : id = last
    · simp [hid]
    · simp [hid]

theorem get?_sanitize_sent : (sanitizeIngressCounters (sent g counter)).get? id =
    if id ∈ g.chain then some (min (counter id) maxSafeInteger) else none := by
  have hfew : (sent g counter).length ≤ maxRulesPerAgent := by
    rw [sent, List.length_map]
    exact g.few
  rw [sanitizeIngressCounters, List.take_of_length_le hfew]
  exact get?_foldl_keep g.positive

/-- A watched row is sampled. -/
theorem get?_heartbeat (h : Watched g s id row) :
    (step g s (.heartbeat now)).rows.get? id = some (recordRow row (sample s id) now) := by
  obtain ⟨hchain, hrow, hagent⟩ := h
  change (recordCounters g.agent (sent g s.counter) now s.rows).get? id = _
  rw [recordCounters, Table.get?_filterMap, hrow, Option.bind_some, get?_sanitize_sent,
    if_pos hchain]
  exact congrArg some (if_pos hagent)

/-- A heartbeat watches the rows it watched before. -/
theorem watched_of_heartbeat (h : Watched g (step g s (.heartbeat now)) id row') :
    ∃ row, Watched g s id row ∧ row' = recordRow row (sample s id) now := by
  obtain ⟨hchain, hrow', hagent⟩ := h
  have hget := hrow'
  change (recordCounters g.agent (sent g s.counter) now s.rows).get? id = _ at hrow'
  rw [recordCounters, Table.get?_filterMap, get?_sanitize_sent, if_pos hchain] at hrow'
  obtain ⟨row, hrow, hsome⟩ := Option.bind_eq_some_iff.mp hrow'
  have hmine : row.agentId = g.agent := by
    by_contra hother
    rw [← Option.some.inj hsome, if_neg hother] at hagent
    exact hother hagent
  exact ⟨row, ⟨hchain, hrow, hmine⟩,
    Option.some.inj (hget.symm.trans (get?_heartbeat ⟨hchain, hrow, hmine⟩))⟩

/-! What the stored count says of the counter. -/

/-- The chain was rebuilt since the last heartbeat, or the counter goes on from the stored count. -/
structure Known (s : State) (id : ℕ) (row : Row) : Prop where
  le : s.recent id ≤ s.sinceBeat id
  since : s.counter id = s.recent id ∨ ∃ base, row.hitPackets = min base maxSafeInteger ∧
    s.counter id = base + s.sinceBeat id ∧ s.recent id = s.sinceBeat id

def Invariant (g : Gateway) (s : State) : Prop := ∀ id row, Watched g s id row → Known s id row

theorem invariant_start : Invariant g (start rows) := by
  intro id row _
  exact ⟨Nat.le_refl 0, .inl rfl⟩

theorem invariant_step {a : Act} (hs : Step g s a t) (hi : Invariant g s) : Invariant g t := by
  cases hs
  intro id row hw
  cases a with
  | connect hit =>
    obtain ⟨hle, hsince⟩ := hi id row hw
    by_cases hid : id = hit
    · subst hid
      refine ⟨by simpa [step] using hle, ?_⟩
      rcases hsince with hfresh | ⟨base, hstored, hcounter, hrecent⟩
      · exact .inl (by simpa [step] using hfresh)
      · exact .inr ⟨base, hstored, by simp [step]; omega, by simpa [step] using hrecent⟩
    · exact ⟨by simpa [step, hid] using hle, by simpa [step, hid] using hsince⟩
  | rebuild => exact ⟨Nat.zero_le _, .inl rfl⟩
  | heartbeat now =>
    obtain ⟨row, -, rfl⟩ := watched_of_heartbeat hw
    exact ⟨Nat.le_refl 0, .inr ⟨s.counter id, hitPackets_recordRow, rfl, rfl⟩⟩

/-- A rule that was hit has a sample that is not zero. -/
theorem sample_pos (h : Known s id row) (hhit : 0 < s.recent id) : 0 < sample s id := by
  have hcounter : 0 < s.counter id := by
    rcases h.since with hfresh | ⟨base, -, hcounter, hrecent⟩
    · omega
    · omega
  rw [sample, maxSafeInteger]
  omega

/-- A rule that was not hit since the last heartbeat has the stored count or zero. -/
theorem sample_of_quiet (h : Known s id row) (hquiet : s.sinceBeat id = 0) :
    sample s id = row.hitPackets ∨ sample s id = 0 := by
  rcases h.since with hfresh | ⟨base, hstored, hcounter, -⟩
  · have hle := h.le
    right
    rw [sample]
    omega
  · left
    rw [sample, hstored, hcounter, hquiet, Nat.add_zero]

theorem recorded_iff {a : Act} (hs : Step g s a t) (hi : Invariant g s) :
    Recorded g s a t ↔ Distinguishable g s a := by
  cases hs
  constructor
  · rintro hrec now rfl id row hw
    obtain ⟨hhit, hquiet⟩ := hrec now rfl id row _ hw (get?_heartbeat hw)
    have hknown := hi id row hw
    constructor
    · intro hpos
      exact (lastHitAt_recordRow_eq_now (sample_pos hknown hpos)).mp (hhit hpos)
    · intro hzero
      exact (lastHitAt_recordRow_eq_self (sample_of_quiet hknown hzero)).mp (hquiet hzero)
  · rintro hok now rfl id row row' hw hrow'
    obtain ⟨hhit, hquiet⟩ := hok now rfl id row hw
    have hknown := hi id row hw
    obtain rfl : recordRow row (sample s id) now = row' :=
      Option.some.inj ((get?_heartbeat hw).symm.trans hrow')
    constructor
    · intro hpos
      exact (lastHitAt_recordRow_eq_now (sample_pos hknown hpos)).mpr (hhit hpos)
    · intro hzero
      exact (lastHitAt_recordRow_eq_self (sample_of_quiet hknown hzero)).mpr (hquiet hzero)

/-- All heartbeats of a run record the hits exactly when each of them finds other counts than the
stored ones wherever there were hits. -/
theorem recorded_throughout_iff :
    Run (fun s a t => Step g s a t ∧ Recorded g s a t) (start rows) acts u ↔
      Run (Guarded (Step g) (Distinguishable g)) (start rows) acts u :=
  Run.guarded_iff_each invariant_step (fun _ => recorded_iff) invariant_start

theorem recorded_of_run {a : Act}
    (h : Run (fun s a t => Step g s a t ∧ Recorded g s a t) s (acts ++ [a]) u) :
    Recorded g (acts.foldl (step g) s) a u := by
  induction acts generalizing s with
  | nil =>
    cases h with
    | cons hst hnil =>
      cases hnil
      exact hst.2
  | cons b acts ih =>
    cases h with
    | cons hst h =>
      cases hst.1
      exact ih h

theorem run_foldl : Run (Step g) s acts (acts.foldl (step g) s) := by
  induction acts generalizing s with
  | nil => exact .nil s
  | cons a acts ih => exact .cons rfl ih

/-- One agent with one rule. -/
def oneRule : Gateway := ⟨1, [7], by decide, by decide⟩

/-- A rule that was never hit. -/
def unused : Table ℕ Row := Table.empty.set 7 ⟨1, 0, none⟩

/-- As many connections after a rebuild as the store has from before it: the second hit is
overlooked. -/
theorem same_count_overlooked :
    ¬ ∀ (g : Gateway) (rows : Table ℕ Row) (acts : List Act) (u : State),
    Run (Step g) (start rows) acts u →
    Run (fun s a t => Step g s a t ∧ Recorded g s a t) (start rows) acts u := by
  intro h
  have hrun :=
    h oneRule unused ([.connect 7, .heartbeat 100, .rebuild, .connect 7] ++ [.heartbeat 200]) _
      run_foldl
  have hseen :=
    recorded_of_run hrun 200 rfl 7 ⟨1, 1, some 100⟩ ⟨1, 1, some 100⟩ ⟨by decide, rfl, rfl⟩ rfl
  exact absurd (hseen.1 (by decide)) (by decide)

end FloppyGuard.Ingress.HitCounters
