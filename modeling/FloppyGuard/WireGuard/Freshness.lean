import FloppyGuard.WireGuard.RotatedOnce

/-! Downloads beside changes of the metadata (`updatePeer`, `applyMetadata`,
`restoreMetadataBackup`): a change writes the store, clears the config cache and then resolves. What
a run in flight has read before is not cleared with it. -/
namespace FloppyGuard.WireGuard.Freshness

open KeyRotation (Phase Draft Owned)

/-- How far a change has come. -/
inductive Stage
  | written
  | cleared
  | resolved
deriving DecidableEq

structure Change where
  /-- the number of writes up to this one -/
  time : ℕ
  before : Table String LinkEntry
  after : Table String LinkEntry
  stage : Stage

/-- `linkOf` says which link an id is or was an id of: a link has a new id with every new key. -/
def Change.Of (linkOf : String → String) (ch : Change) (link : String) : Prop :=
  ∃ id, linkOf id = link ∧ ch.before.get? id ≠ ch.after.get? id

structure State where
  gen : KeyRotation.State
  changes : ℕ → Option Change
  /-- the changes that have resolved -/
  resolved : List ℕ
  /-- the number of writes so far -/
  clock : ℕ
  /-- by run: the number of writes before it read the store -/
  seen : ℕ → ℕ
  /-- by call: the id it asks for and the changes that had resolved -/
  asked : ℕ → Option (String × List ℕ)

inductive Act
  | peer (a : KeyRotation.Act)
  | write (k : ℕ) (links : Table String LinkEntry)
  | clear (k : ℕ)
  | resolve (k : ℕ)

namespace State

variable (s : State)

/-- A step of a generation, with what is to be remembered of it. -/
def after (gen : KeyRotation.State) : KeyRotation.Act → State
  | .readStore i => { s with gen, seen := Function.update s.seen i s.clock }
  | .ask c id => { s with gen, asked := Function.update s.asked c (some (id, s.resolved)) }
  | _ => { s with gen }

def setStage (k : ℕ) (ch : Change) (stage : Stage) : State :=
  { s with changes := Function.update s.changes k (some { ch with stage }) }

def write (k : ℕ) (links : Table String LinkEntry) : State :=
  { s with
    gen := { s.gen with links }
    changes := Function.update s.changes k (some ⟨s.clock + 1, s.gen.links, links, .written⟩)
    clock := s.clock + 1 }

/-- `clearPeerConfigCache` -/
def clear (k : ℕ) (ch : Change) : State :=
  { s.setStage k ch .cleared with gen := { s.gen with cache := .empty } }

def resolve (k : ℕ) (ch : Change) : State :=
  { s.setStage k ch .resolved with resolved := k :: s.resolved }

end State

/-- The metadata is written under the lock that a rotation holds. -/
def step (w : HubWorld) (s : State) : Act → Option State
  | .peer a => (KeyRotation.step w s.gen a).map fun gen => s.after gen a
  | .write k links =>
    if (s.changes k).isSome ∨ s.gen.holder.isSome then none else some (s.write k links)
  | .clear k =>
    match s.changes k with
    | some ch => if ch.stage = .written then some (s.clear k ch) else none
    | none => none
  | .resolve k =>
    match s.changes k with
    | some ch => if ch.stage = .cleared then some (s.resolve k ch) else none
    | none => none

/-- None of the changes is a later change of the link. -/
def Meets (linkOf : String → String) (changes : ℕ → Option Change) (link : String) (ks : List ℕ)
    (n : ℕ) : Prop :=
  ∀ k ∈ ks, ∀ ch, changes k = some ch → ch.Of linkOf link → ch.time ≤ n

/-- Every config a call has got was made by a run that read the metadata after each change of the
link that had resolved when the call started. -/
def Fresh (linkOf : String → String) (s : State) : Prop :=
  ∀ c id ks r, s.asked c = some (id, ks) → s.gen.calls c = some (.ended (some r)) →
    ∃ i id', s.gen.runs i = some ⟨id', .done r⟩ ∧ Meets linkOf s.changes (linkOf id) ks (s.seen i)

/-- The run has read the store and may still hand something out. -/
def Reader : Phase → Prop
  | .asked | .failed => False
  | _ => True

/-- The run has not ended, or its promise is still shared. -/
def Open (s : State) (i : ℕ) (id : String) (p : Phase) : Prop :=
  p.result? = none ∨ s.gen.inFlight.get? id = some i

/-- When a change of a link clears the cache, no open run of the link has read the store before the
change. And `genkey` makes no key that another link has had. -/
def Timely (w : HubWorld) (linkOf : String → String) (s : State) : Act → Prop
  | .clear k =>
    ∀ ch, s.changes k = some ch → ∀ i id p, s.gen.runs i = some ⟨id, p⟩ → Reader p → Open s i id p →
      ch.Of linkOf (linkOf id) → ch.time ≤ s.seen i
  | .peer (.genkey i privateKey) => ∀ run, s.gen.runs i = some run →
      linkOf (linkId w.ifaceName (w.derivePublicKey privateKey)) = linkOf run.id
  | _ => True

structure Start (s : State) : Prop where
  calls : ∀ c, s.gen.calls c = none
  runs : ∀ i, s.gen.runs i = none
  cache : s.gen.cache = .empty
  inFlight : s.gen.inFlight = .empty
  changes : ∀ k, s.changes k = none
  resolved : s.resolved = []
  asked : ∀ c, s.asked c = none

/-! What a step of a generation does to what is shared. -/

/-- What a run takes with it once it has made its key. -/
def draft? : Phase → Option Draft
  | .keyed d | .written d | .removed d | .rotated d | .moved d | .ready d _ _ => some d
  | _ => none

inductive Effect (w : HubWorld) (g : KeyRotation.State) : KeyRotation.Act → KeyRotation.State → Prop
  | cached {c id r} : g.calls c = none → g.cache.get? id = some r →
      Effect w g (.ask c id) (g.answer c (.ended (some r)))
  | joined {c id owner} : g.calls c = none → g.inFlight.get? id = some owner →
      Effect w g (.ask c id) (g.answer c (.waiting owner))
  | started {c id} : g.calls c = none → g.inFlight.get? id = none →
      Effect w g (.ask c id) (g.start c id)
  | read {i id} : g.runs i = some ⟨id, .asked⟩ →
      Effect w g (.readStore i) (g.enter i id (.read g.links))
  /-- A run goes on; only `genkey` gives it a key. -/
  | advanced {a i id p p' g'} : g.runs i = some ⟨id, p⟩ → p.result? = none →
      g'.runs = Function.update g.runs i (some ⟨id, p'⟩) → g'.calls = g.calls → g'.cache = g.cache →
      g'.inFlight = g.inFlight → (∀ j, a ≠ .readStore j) → (∀ c id, a ≠ .ask c id) →
        (Reader p' → Reader p) →
      (∀ r, p' ≠ .done r) →
        (∀ d, draft? p' = some d → draft? p = some d ∨ a = .genkey i d.privateKey) →
      Effect w g a g'
  | finish {i id d rotated store} : g.runs i = some ⟨id, .ready d rotated store⟩ →
      Effect w g (.finish i) (g.finished w i id d rotated store)
  | settle {c owner id phase result} : g.calls c = some (.waiting owner) →
      g.runs owner = some ⟨id, phase⟩ →
      phase.result? = some result → Effect w g (.settle c) (g.settled c owner id result)
  | expire {id} : Effect w g (.expire id) { g with cache := g.cache.erase id }

variable {w : HubWorld} {linkOf : String → String} {s t : State} {g g' : KeyRotation.State}
  {a : Act} {id link : String}
  {n : ℕ}

theorem effect_of_step {a : KeyRotation.Act} (h : KeyRotation.Step w g a g') : Effect w g a g' := by
  cases h with
  | cached hc hr => exact .cached hc hr
  | joined hc _ ho => exact .joined hc ho
  | started hc _ ho => exact .started hc ho
  | readStore hi => exact .read hi
  | found hi _ => exact .advanced hi rfl rfl rfl rfl rfl nofun nofun id nofun nofun
  | notFound hi _ => exact .advanced hi rfl rfl rfl rfl rfl nofun nofun nofun nofun nofun
  | genkey hi _ =>
    exact .advanced hi rfl rfl rfl rfl rfl nofun nofun id nofun fun d hd =>
      .inr (Option.some.inj hd ▸ rfl)
  | swapped hi _ _ _ _ => exact .advanced hi rfl rfl rfl rfl rfl nofun nofun id nofun fun _ => .inl
  | kept hi _ => exact .advanced hi rfl rfl rfl rfl rfl nofun nofun id nofun fun _ => .inl
  | wgRemove hi => exact .advanced hi rfl rfl rfl rfl rfl nofun nofun id nofun fun _ => .inl
  | wgAdd hi => exact .advanced hi rfl rfl rfl rfl rfl nofun nofun id nofun fun _ => .inl
  | moveEntry hi _ => exact .advanced hi rfl rfl rfl rfl rfl nofun nofun id nofun fun _ => .inl
  | reread hi => exact .advanced hi rfl rfl rfl rfl rfl nofun nofun id nofun fun _ => .inl
  | finish hi => exact .finish hi
  | @fail i id phase hi hmay =>
    refine .advanced hi ?_ rfl rfl rfl rfl nofun nofun nofun nofun nofun
    cases phase <;> first | rfl | cases hmay
  | settle hc ho hr => exact .settle hc ho hr
  | expire => exact .expire

/-! What holds in between. -/

/-- No change of the link that has cleared the cache is later. -/
def Due (linkOf : String → String) (changes : ℕ → Option Change) (link : String) (n : ℕ) : Prop :=
  ∀ k ch, changes k = some ch → ch.stage ≠ .written → ch.Of linkOf link → ch.time ≤ n

/-- The changes a call or the cache may be measured by. -/
structure Ledger (s : State) : Prop where
  times : ∀ k ch, s.changes k = some ch → ch.time ≤ s.clock
  resolved : ∀ k ∈ s.resolved, ∃ ch, s.changes k = some ch ∧ ch.stage ≠ .written
  asked : ∀ c id ks, s.asked c = some (id, ks) → ∀ k ∈ ks, (s.changes k).isSome

structure Invariant (w : HubWorld) (linkOf : String → String) (s : State) : Prop where
  owned : Owned s.gen
  ledger : Ledger s
  drafts : ∀ i id p d, s.gen.runs i = some ⟨id, p⟩ → draft? p = some d →
    linkOf (d.newLinkId w) = linkOf id
  readers : ∀ i id p, s.gen.runs i = some ⟨id, p⟩ → Reader p → Open s i id p →
    Due linkOf s.changes (linkOf id) (s.seen i)
  flight : ∀ id i, s.gen.inFlight.get? id = some i → ∃ p, s.gen.runs i = some ⟨id, p⟩
  cached : ∀ id r, s.gen.cache.get? id = some r →
    ∃ i id', s.gen.runs i = some ⟨id', .done r⟩ ∧ Due linkOf s.changes (linkOf id) (s.seen i)
  waiting : ∀ c i id ks, s.gen.calls c = some (.waiting i) → s.asked c = some (id, ks) →
    ∃ id' p, s.gen.runs i = some ⟨id', p⟩ ∧
      (Reader p → Meets linkOf s.changes (linkOf id) ks (s.seen i))
  ended : Fresh linkOf s

theorem Due.meets {changes : ℕ → Option Change} {ks : List ℕ} (h : Due linkOf changes link n)
    (hks : ∀ k ∈ ks, ∃ ch, changes k = some ch ∧ ch.stage ≠ .written) :
    Meets linkOf changes link ks n := by
  intro k hk ch hch hof
  obtain ⟨ch', hch', hstage⟩ := hks k hk
  obtain rfl := Option.some.inj (hch.symm.trans hch')
  exact h k ch hch hstage hof

section Runs

variable {i j : ℕ} {id' : String} {p p' q : Phase} {r : PeerConfig}

theorem done_update (hi : g.runs i = some ⟨id, p⟩) (hp : p.result? = none)
    (hj : g.runs j = some ⟨id', .done r⟩) :
    Function.update g.runs i (some ⟨id, p'⟩) j = some ⟨id', .done r⟩ := by
  rw [Function.update_of_ne, hj]
  rintro rfl
  cases Option.some.inj (hi.symm.trans hj)
  cases hp

/-- A promise stays under its id. -/
theorem exists_update (hi : g.runs i = some ⟨id, p⟩) (hj : g.runs j = some ⟨id', q⟩) :
    ∃ q', Function.update g.runs i (some ⟨id, p'⟩) j = some ⟨id', q'⟩ := by
  by_cases hji : j = i
  · subst hji
    cases Option.some.inj (hi.symm.trans hj)
    exact ⟨p', Function.update_self ..⟩
  · exact ⟨q, by rw [Function.update_of_ne hji, hj]⟩

end Runs

theorem Ledger.ask (h : Ledger s) {c : ℕ} : Ledger (s.after g (.ask c id)) := by
  refine ⟨h.times, h.resolved, fun c' id' ks hasks k hk => ?_⟩
  change Function.update s.asked c (some (id, s.resolved)) c' = _ at hasks
  rw [Function.update_apply] at hasks
  split at hasks
  · cases hasks
    obtain ⟨ch, hch, -⟩ := h.resolved k hk
    exact Option.isSome_iff_exists.mpr ⟨ch, hch⟩
  · exact h.asked c' id' ks hasks k hk

/-- A call that is answered from the cache, or joins a run in flight. -/
theorem Invariant.answer {c : ℕ} {call : KeyRotation.Call} (h : Invariant w linkOf s)
    (hc : s.gen.calls c = none)
    (hwait : ∀ i, call = .waiting i → ∃ id' p, s.gen.runs i = some ⟨id', p⟩ ∧
      (Reader p → Meets linkOf s.changes (linkOf id) s.resolved (s.seen i)))
    (hend : ∀ r, call = .ended (some r) → ∃ i id', s.gen.runs i = some ⟨id', .done r⟩ ∧
      Meets linkOf s.changes (linkOf id) s.resolved (s.seen i)) :
    Invariant w linkOf (s.after (s.gen.answer c call) (.ask c id)) := by
  have hcalls : ∀ c', (s.gen.answer c call).calls c' = if c' = c then some call
      else s.gen.calls c' :=
    fun c' => KeyRotation.answer_calls
  have hasked : ∀ c', (s.after (s.gen.answer c call) (.ask c id)).asked c' =
      if c' = c then some (id, s.resolved) else s.asked c' := fun c' => Function.update_apply ..
  refine ⟨h.owned.answer hc, h.ledger.ask, h.drafts, h.readers, h.flight, h.cached,
    fun c' i id' ks hcall hasks => ?_, fun c' id' ks r hasks hcall => ?_⟩
  · rw [hasked] at hasks
    change (s.gen.answer c call).calls c' = _ at hcall
    rw [hcalls] at hcall
    split at hcall
    · next hself =>
      rw [if_pos hself] at hasks
      cases hasks
      exact hwait i (Option.some.inj hcall)
    · next hne =>
      rw [if_neg hne] at hasks
      exact h.waiting c' i id' ks hcall hasks
  · rw [hasked] at hasks
    change (s.gen.answer c call).calls c' = _ at hcall
    rw [hcalls] at hcall
    split at hcall
    · next hself =>
      rw [if_pos hself] at hasks
      cases hasks
      exact hend r (Option.some.inj hcall)
    · next hne =>
      rw [if_neg hne] at hasks
      exact h.ended c' id' ks r hasks hcall

theorem Invariant.start {c : ℕ} (h : Invariant w linkOf s) (hc : s.gen.calls c = none)
    (hf : s.gen.inFlight.get? id = none) :
    Invariant w linkOf (s.after (s.gen.start c id) (.ask c id)) := by
  have hnone : ∀ {run}, s.gen.runs c ≠ some run := fun hr => h.owned.called c _ _ hr hc
  have hruns : ∀ j, (s.gen.start c id).runs j = if j = c then some ⟨id, .asked⟩ else s.gen.runs j :=
    fun j => Function.update_apply ..
  have hkept : ∀ {j run}, s.gen.runs j = some run → (s.gen.start c id).runs j = some run := by
    intro j run hj
    rw [hruns, if_neg, hj]
    rintro rfl
    exact hnone hj
  have hcalls : ∀ c', (s.gen.start c id).calls c' = if c' = c then some (.waiting c)
      else s.gen.calls c' :=
    fun c' => Function.update_apply ..
  have hasked : ∀ c', (s.after (s.gen.start c id) (.ask c id)).asked c' =
      if c' = c then some (id, s.resolved) else s.asked c' := fun c' => Function.update_apply ..
  have hflight : ∀ id', (s.gen.start c id).inFlight.get? id' = if id' = id then some c
      else s.gen.inFlight.get? id' :=
    fun id' => Table.get?_set
  constructor
  · exact h.owned.start hc hf
  · exact h.ledger.ask
  · intro j id' p d hj hd
    change (s.gen.start c id).runs j = _ at hj
    rw [hruns] at hj
    split at hj
    · cases hj
      cases hd
    · exact h.drafts j id' p d hj hd
  · intro j id' p hj hp hopen
    change (s.gen.start c id).runs j = _ at hj
    rw [hruns] at hj
    split at hj
    · cases hj
      exact hp.elim
    · next hne =>
      refine h.readers j id' p hj hp (hopen.imp_right fun hf => ?_)
      change (s.gen.start c id).inFlight.get? id' = _ at hf
      rw [hflight] at hf
      split at hf
      · exact (hne (Option.some.inj hf).symm).elim
      · exact hf
  · intro id' j hj
    change (s.gen.start c id).inFlight.get? id' = _ at hj
    rw [hflight] at hj
    split at hj
    · next hid =>
      cases hj
      exact ⟨.asked, by rw [hid]; exact (hruns c).trans (if_pos rfl)⟩
    · obtain ⟨p, hp⟩ := h.flight id' j hj
      exact ⟨p, hkept hp⟩
  · intro id' r hr
    obtain ⟨j, id'', hj, hdue⟩ := h.cached id' r hr
    exact ⟨j, id'', hkept hj, hdue⟩
  · intro c' j id' ks hcall hasks
    change (s.gen.start c id).calls c' = _ at hcall
    rw [hcalls] at hcall
    rw [hasked] at hasks
    split at hcall
    · cases hcall
      exact ⟨id, .asked, (hruns c).trans (if_pos rfl), False.elim⟩
    · next hne =>
      rw [if_neg hne] at hasks
      obtain ⟨id'', p, hj, hmeets⟩ := h.waiting c' j id' ks hcall hasks
      exact ⟨id'', p, hkept hj, hmeets⟩
  · intro c' id' ks r hasks hcall
    change (s.gen.start c id).calls c' = _ at hcall
    rw [hcalls] at hcall
    rw [hasked] at hasks
    split at hcall
    · cases hcall
    · next hne =>
      rw [if_neg hne] at hasks
      obtain ⟨j, id'', hj, hmeets⟩ := h.ended c' id' ks r hasks hcall
      exact ⟨j, id'', hkept hj, hmeets⟩

/-- The store a run reads has every change so far. -/
theorem Invariant.read {i : ℕ} (h : Invariant w linkOf s) (hi : s.gen.runs i = some ⟨id, .asked⟩) :
    Invariant w linkOf (s.after (s.gen.enter i id (.read s.gen.links)) (.readStore i)) := by
  have hseen : ∀ j, (s.after (s.gen.enter i id (.read s.gen.links)) (.readStore i)).seen j =
      if j = i then s.clock else s.seen j := fun j => Function.update_apply ..
  have hdone : ∀ {j id' r}, s.gen.runs j = some ⟨id', .done r⟩ → j ≠ i := by
    rintro j id' r hj rfl
    cases Option.some.inj (hi.symm.trans hj)
  constructor
  · exact h.owned.enter hi rfl
  · exact ⟨h.ledger.times, h.ledger.resolved, h.ledger.asked⟩
  · intro j id' p d hj hd
    rcases KeyRotation.enter_runs hj with ⟨-, -, rfl⟩ | ⟨-, hj⟩
    · cases hd
    · exact h.drafts j id' p d hj hd
  · intro j id' p hj hp hopen
    rw [hseen]
    rcases KeyRotation.enter_runs hj with ⟨rfl, -, -⟩ | ⟨hne, hj⟩
    · rw [if_pos rfl]
      exact fun k ch hch _ _ => h.ledger.times k ch hch
    · rw [if_neg hne]
      exact h.readers j id' p hj hp hopen
  · intro id' j hj
    obtain ⟨p, hp⟩ := h.flight id' j hj
    exact exists_update hi hp
  · intro id' r hr
    obtain ⟨j, id'', hj, hdue⟩ := h.cached id' r hr
    exact ⟨j, id'', done_update hi rfl hj, by rw [hseen, if_neg (hdone hj)]; exact hdue⟩
  · intro c j id' ks hcall hasks
    obtain ⟨id'', p, hj, hmeets⟩ := h.waiting c j id' ks hcall hasks
    by_cases hji : j = i
    · subst hji
      refine ⟨id, _, Function.update_self .., fun _ k _ ch hch _ => ?_⟩
      rw [hseen, if_pos rfl]
      exact h.ledger.times k ch hch
    · exact ⟨id'', p, (Function.update_of_ne hji ..).trans hj,
        by rw [hseen, if_neg hji]; exact hmeets⟩
  · intro c id' ks r hasks hcall
    obtain ⟨j, id'', hj, hmeets⟩ := h.ended c id' ks r hasks hcall
    exact ⟨j, id'', done_update hi rfl hj, by rw [hseen, if_neg (hdone hj)]; exact hmeets⟩

/-- A run that has read the store goes on. What it puts into the cache is under ids of its link. -/
theorem Invariant.moves {i : ℕ} {p p' : Phase} (h : Invariant w linkOf s)
    (hi : s.gen.runs i = some ⟨id, p⟩)
    (hp : p.result? = none) (hown : Owned g)
    (hruns : g.runs = Function.update s.gen.runs i (some ⟨id, p'⟩))
    (hcalls : g.calls = s.gen.calls) (hflight : g.inFlight = s.gen.inFlight)
    (hread : Reader p' → Reader p)
    (hdraft : ∀ d, draft? p' = some d → linkOf (d.newLinkId w) = linkOf id)
    (hcache : ∀ id' r, g.cache.get? id' = some r → s.gen.cache.get? id' = some r ∨ p' = .done r ∧
      linkOf id' = linkOf id) :
    Invariant w linkOf { s with gen := g } := by
  constructor
  · exact hown
  · exact ⟨h.ledger.times, h.ledger.resolved, h.ledger.asked⟩
  · intro j id' q d hj hd
    change g.runs j = _ at hj
    rw [hruns] at hj
    rcases KeyRotation.enter_runs hj with ⟨-, rfl, rfl⟩ | ⟨-, hj⟩
    · exact hdraft d hd
    · exact h.drafts j id' q d hj hd
  · intro j id' q hj hq hopen
    change g.runs j = _ at hj
    rw [hruns] at hj
    rcases KeyRotation.enter_runs hj with ⟨rfl, rfl, rfl⟩ | ⟨-, hj⟩
    · exact h.readers j id' p hi (hread hq) (.inl hp)
    · exact h.readers j id' q hj hq (hopen.imp_right fun hf => hflight ▸ hf)
  · intro id' j hj
    obtain ⟨q, hq⟩ := h.flight id' j (hflight ▸ hj)
    change ∃ q, g.runs j = _
    rw [hruns]
    exact exists_update hi hq
  · intro id' r hr
    change ∃ j id'', g.runs j = _ ∧ _
    rw [hruns]
    rcases hcache id' r hr with hr | ⟨rfl, hlink⟩
    · obtain ⟨j, id'', hj, hdue⟩ := h.cached id' r hr
      exact ⟨j, id'', done_update hi hp hj, hdue⟩
    · rw [hlink]
      exact ⟨i, id, Function.update_self .., h.readers i id p hi (hread trivial) (.inl hp)⟩
  · intro c j id' ks hcall hasks
    obtain ⟨id'', q, hj, hmeets⟩ := h.waiting c j id' ks (hcalls ▸ hcall) hasks
    change ∃ id'' q, g.runs j = _ ∧ _
    rw [hruns]
    by_cases hji : j = i
    · subst hji
      cases Option.some.inj (hi.symm.trans hj)
      exact ⟨id, p', Function.update_self .., fun hq => hmeets (hread hq)⟩
    · exact ⟨id'', q, (Function.update_of_ne hji ..).trans hj, hmeets⟩
  · intro c id' ks r hasks hcall
    obtain ⟨j, id'', hj, hmeets⟩ := h.ended c id' ks r hasks (hcalls ▸ hcall)
    change ∃ j id'', g.runs j = _ ∧ _
    rw [hruns]
    exact ⟨j, id'', done_update hi hp hj, hmeets⟩

theorem Invariant.settle {c owner : ℕ} {p : Phase} {result : Option PeerConfig}
    (h : Invariant w linkOf s)
    (hc : s.gen.calls c = some (.waiting owner)) (ho : s.gen.runs owner = some ⟨id, p⟩)
    (hp : p.result? = some result) :
    Invariant w linkOf { s with gen := s.gen.settled c owner id result } := by
  have hcalls : ∀ c', (s.gen.settled c owner id result).calls c' =
      if c' = c then some (.ended result) else s.gen.calls c' := fun c' => KeyRotation.answer_calls
  have hflight : ∀ {id' j}, (s.gen.settled c owner id result).inFlight.get? id' = some j →
      s.gen.inFlight.get? id' = some j := by
    intro id' j hj
    change (if c = owner then s.gen.inFlight.erase id else s.gen.inFlight).get? id' = _ at hj
    split at hj
    · rw [Table.get?_erase] at hj
      split at hj
      · cases hj
      · exact hj
    · exact hj
  refine ⟨h.owned.settle hc ho hp, ⟨h.ledger.times, h.ledger.resolved, h.ledger.asked⟩, h.drafts,
    fun j id' q hj hq hopen => h.readers j id' q hj hq (hopen.imp_right hflight), fun id' j hj =>
      h.flight id' j (hflight hj),
    h.cached, fun c' j id' ks hcall hasks => ?_, fun c' id' ks r hasks hcall => ?_⟩
  · change (s.gen.settled c owner id result).calls c' = _ at hcall
    rw [hcalls] at hcall
    split at hcall
    · cases hcall
    · exact h.waiting c' j id' ks hcall hasks
  · change (s.gen.settled c owner id result).calls c' = _ at hcall
    rw [hcalls] at hcall
    split at hcall
    · next hself =>
      subst hself
      obtain rfl : result = some r := KeyRotation.Call.ended.inj (Option.some.inj hcall)
      have hdone : p = .done r := by
        cases p <;> cases hp
        rfl
      subst hdone
      obtain ⟨id'', q, hq, hmeets⟩ := h.waiting c' owner id' ks hc hasks
      cases Option.some.inj (ho.symm.trans hq)
      exact ⟨owner, id, ho, hmeets trivial⟩
    · exact h.ended c' id' ks r hasks hcall

theorem after_quiet {a : KeyRotation.Act} (hread : ∀ j, a ≠ .readStore j)
    (hask : ∀ c id, a ≠ .ask c id) :
    s.after g a = { s with gen := g } := by
  cases a <;> first | rfl | exact absurd rfl (hread _) | exact absurd rfl (hask _ _)

theorem Invariant.peer {a : KeyRotation.Act} (h : Invariant w linkOf s)
    (hs : KeyRotation.Step w s.gen a g)
    (hok : Timely w linkOf s (.peer a)) : Invariant w linkOf (s.after g a) := by
  have hown := h.owned.step hs
  cases effect_of_step hs with
  | cached hc hr =>
    refine h.answer hc nofun fun r he => ?_
    obtain rfl := Option.some.inj (KeyRotation.Call.ended.inj he)
    obtain ⟨i, id', hi, hdue⟩ := h.cached _ _ hr
    exact ⟨i, id', hi, hdue.meets h.ledger.resolved⟩
  | joined hc ho =>
    refine h.answer hc (fun i he => ?_) nofun
    obtain rfl := KeyRotation.Call.waiting.inj he
    obtain ⟨p, hp⟩ := h.flight _ _ ho
    exact ⟨_, p, hp, fun hread => (h.readers _ _ p hp hread (.inr ho)).meets h.ledger.resolved⟩
  | started hc hf => exact h.start hc hf
  | read hi => exact h.read hi
  | @advanced _ i id p p' _ hi hp hruns hcalls hcache hflight hread hask hmono _ hdraft =>
    rw [after_quiet hread hask]
    refine h.moves hi hp hown hruns hcalls hflight hmono (fun d hd => ?_) fun id' r hr =>
      .inl (hcache ▸ hr)
    rcases hdraft d hd with hd | rfl
    · exact h.drafts i id p d hi hd
    · exact hok ⟨id, p⟩ hi
  | @finish i id d rotated store hi =>
    refine h.moves hi rfl hown rfl rfl rfl (fun _ => trivial) nofun fun id' r hr => ?_
    have hlink := h.drafts i id _ d hi rfl
    change (if rotated then (s.gen.cache.set id (d.config w id rotated store)).set (d.newLinkId w)
      (d.config w id rotated store)
      else s.gen.cache.set id (d.config w id rotated store)).get? id' = some r at hr
    have hold : ∀ {r}, (s.gen.cache.set id (d.config w id rotated store)).get? id' = some r →
        s.gen.cache.get? id' = some r ∨ Phase.done (d.config w id rotated store) = .done r ∧
          linkOf id' = linkOf id := by
      intro r hr
      rw [Table.get?_set] at hr
      split at hr
      · next he => exact .inr ⟨congrArg _ (Option.some.inj hr), by rw [he]⟩
      · exact .inl hr
    split at hr
    · rw [Table.get?_set] at hr
      split at hr
      · next he => exact .inr ⟨congrArg _ (Option.some.inj hr), by rw [he, hlink]⟩
      · exact hold hr
    · exact hold hr
  | settle hc ho hr => exact h.settle hc ho hr
  | @expire id =>
    refine ⟨hown, ⟨h.ledger.times, h.ledger.resolved, h.ledger.asked⟩, h.drafts, h.readers,
      h.flight,
      fun id' r hr => ?_, h.waiting, h.ended⟩
    change (s.gen.cache.erase id).get? id' = _ at hr
    rw [Table.get?_erase] at hr
    split at hr
    · cases hr
    · exact h.cached id' r hr

/-! The steps of a change. -/

theorem Invariant.write {k : ℕ} {links : Table String LinkEntry} (h : Invariant w linkOf s)
    (hk : s.changes k = none) :
    Invariant w linkOf (s.write k links) := by
  have hchanges : ∀ k', (s.write k links).changes k' =
      if k' = k then some ⟨s.clock + 1, s.gen.links, links, .written⟩ else s.changes k' :=
        fun k' => Function.update_apply ..
  have hdue : ∀ {link n}, Due linkOf s.changes link n →
      Due linkOf (s.write k links).changes link n := by
    intro link n hdue k' ch hch hstage hof
    rw [hchanges] at hch
    split at hch
    · cases hch
      exact (hstage rfl).elim
    · exact hdue k' ch hch hstage hof
  have hmeets : ∀ {link ks n}, (∀ k' ∈ ks, (s.changes k').isSome) →
    Meets linkOf s.changes link ks n →
      Meets linkOf (s.write k links).changes link ks n := by
    intro link ks n hks hmeets k' hk' ch hch hof
    rw [hchanges, if_neg] at hch
    · exact hmeets k' hk' ch hch hof
    · rintro rfl
      have hsome := hks k' hk'
      rw [hk] at hsome
      cases hsome
  refine ⟨h.owned.congr rfl rfl rfl,
    ⟨fun k' ch hch => ?_, fun k' hk' => ?_, fun c id ks hasks k' hk' => ?_⟩, h.drafts,
    fun i id p hi hp hopen => hdue (h.readers i id p hi hp hopen), h.flight, fun id r hr => ?_,
    fun c i id ks hcall hasks => ?_, fun c id ks r hasks hcall => ?_⟩
  · rw [hchanges] at hch
    split at hch
    · cases hch
      exact le_rfl
    · exact Nat.le_succ_of_le (h.ledger.times k' ch hch)
  · obtain ⟨ch, hch, hstage⟩ := h.ledger.resolved k' hk'
    refine ⟨ch, ?_, hstage⟩
    rw [hchanges, if_neg, hch]
    rintro rfl
    rw [hk] at hch
    cases hch
  · rw [hchanges]
    split
    · rfl
    · exact h.ledger.asked c id ks hasks k' hk'
  · obtain ⟨i, id', hi, hd⟩ := h.cached id r hr
    exact ⟨i, id', hi, hdue hd⟩
  · obtain ⟨id', p, hi, hm⟩ := h.waiting c i id ks hcall hasks
    exact ⟨id', p, hi, fun hp => hmeets (h.ledger.asked c id ks hasks) (hm hp)⟩
  · obtain ⟨i, id', hi, hm⟩ := h.ended c id ks r hasks hcall
    exact ⟨i, id', hi, hmeets (h.ledger.asked c id ks hasks) hm⟩

section Stage

variable {k : ℕ} {ch : Change} {stage : Stage} {ks : List ℕ}

theorem changes_setStage {k' : ℕ} {ch' : Change} (hk : s.changes k = some ch) :
    (s.setStage k ch stage).changes k' = some ch' ↔
      k' = k ∧ ch' = { ch with stage } ∨ k' ≠ k ∧ s.changes k' = some ch' := by
  change Function.update s.changes k (some { ch with stage }) k' = _ ↔ _
  by_cases he : k' = k
  · subst he
    simp [eq_comm]
  · simp [he]

theorem meets_setStage (hk : s.changes k = some ch) (h : Meets linkOf s.changes link ks n) :
    Meets linkOf (s.setStage k ch stage).changes link ks n := by
  intro k' hk' ch' hch hof
  rcases (changes_setStage hk).mp hch with ⟨rfl, rfl⟩ | ⟨-, hch⟩
  · exact h k' hk' ch hk hof
  · exact h k' hk' ch' hch hof

theorem Ledger.setStage (h : Ledger s) (hk : s.changes k = some ch) (hstage : stage ≠ .written) :
    Ledger (s.setStage k ch stage) := by
  refine ⟨fun k' ch' hch => ?_, fun k' hk' => ?_, fun c id ks hasks k' hk' => ?_⟩
  · rcases (changes_setStage hk).mp hch with ⟨rfl, rfl⟩ | ⟨-, hch⟩
    · exact h.times k' ch hk
    · exact h.times k' ch' hch
  · by_cases he : k' = k
    · exact ⟨_, (changes_setStage hk).mpr (.inl ⟨he, rfl⟩), hstage⟩
    · obtain ⟨ch', hch, hstage⟩ := h.resolved k' hk'
      exact ⟨ch', (changes_setStage hk).mpr (.inr ⟨he, hch⟩), hstage⟩
  · by_cases he : k' = k
    · exact Option.isSome_iff_exists.mpr ⟨_, (changes_setStage hk).mpr (.inl ⟨he, rfl⟩)⟩
    · obtain ⟨ch', hch⟩ := Option.isSome_iff_exists.mp (h.asked c id ks hasks k' hk')
      exact Option.isSome_iff_exists.mpr ⟨ch', (changes_setStage hk).mpr (.inr ⟨he, hch⟩)⟩

/-- After the cache is cleared only open runs can hand out what they have read before. -/
theorem Invariant.clear (h : Invariant w linkOf s) (hk : s.changes k = some ch)
    (hok : Timely w linkOf s (.clear k)) :
    Invariant w linkOf (s.clear k ch) := by
  refine ⟨h.owned.congr rfl rfl rfl, ?_, h.drafts, fun i id p hi hp hopen k' ch' hch hstage hof =>
    ?_, h.flight, nofun,
    fun c i id ks hcall hasks => ?_, fun c id ks r hasks hcall => ?_⟩
  · have hledger : Ledger (s.setStage k ch .cleared) := h.ledger.setStage hk nofun
    exact ⟨hledger.times, hledger.resolved, hledger.asked⟩
  · rcases (changes_setStage hk).mp hch with ⟨rfl, rfl⟩ | ⟨-, hch⟩
    · exact hok ch hk i id p hi hp hopen hof
    · exact h.readers i id p hi hp hopen k' ch' hch hstage hof
  · obtain ⟨id', p, hi, hm⟩ := h.waiting c i id ks hcall hasks
    exact ⟨id', p, hi, fun hp => meets_setStage hk (hm hp)⟩
  · obtain ⟨i, id', hi, hm⟩ := h.ended c id ks r hasks hcall
    exact ⟨i, id', hi, meets_setStage hk hm⟩

theorem Invariant.resolve (h : Invariant w linkOf s) (hk : s.changes k = some ch)
    (hstage : ch.stage = .cleared) :
    Invariant w linkOf (s.resolve k ch) := by
  have hdue : ∀ {link n}, Due linkOf s.changes link n →
      Due linkOf (s.resolve k ch).changes link n := by
    intro link n hdue k' ch' hch hwritten hof
    rcases (changes_setStage hk).mp hch with ⟨rfl, rfl⟩ | ⟨-, hch⟩
    · exact hdue k' ch hk (by rw [hstage]; nofun) hof
    · exact hdue k' ch' hch hwritten hof
  refine ⟨h.owned, ?_, h.drafts, fun i id p hi hp hopen => hdue (h.readers i id p hi hp hopen),
    h.flight, fun id r hr => ?_,
    fun c i id ks hcall hasks => ?_, fun c id ks r hasks hcall => ?_⟩
  · have hledger : Ledger (s.setStage k ch .resolved) := h.ledger.setStage hk nofun
    refine ⟨hledger.times, fun k' hk' => ?_, hledger.asked⟩
    rcases List.mem_cons.mp hk' with rfl | hk'
    · exact ⟨_, (changes_setStage hk).mpr (.inl ⟨rfl, rfl⟩), nofun⟩
    · exact hledger.resolved k' hk'
  · obtain ⟨i, id', hi, hd⟩ := h.cached id r hr
    exact ⟨i, id', hi, hdue hd⟩
  · obtain ⟨id', p, hi, hm⟩ := h.waiting c i id ks hcall hasks
    exact ⟨id', p, hi, fun hp => meets_setStage hk (hm hp)⟩
  · obtain ⟨i, id', hi, hm⟩ := h.ended c id ks r hasks hcall
    exact ⟨i, id', hi, meets_setStage hk hm⟩

end Stage

theorem Invariant.step (h : Invariant w linkOf s) (hs : step w s a = some t)
    (hok : Timely w linkOf s a) :
    Invariant w linkOf t := by
  unfold Freshness.step at hs
  split at hs
  · obtain ⟨g, hg, rfl⟩ := Option.map_eq_some_iff.mp hs
    exact h.peer (KeyRotation.step_cases hg) hok
  · next k links =>
    split at hs
    · cases hs
    · next hno =>
      obtain rfl := Option.some.inj hs
      rw [not_or] at hno
      exact h.write (by simpa using hno.1)
  · split at hs
    · next ch hk =>
      split at hs
      · obtain rfl := Option.some.inj hs
        exact h.clear hk hok
      · cases hs
    · cases hs
  · split at hs
    · next ch hk =>
      split at hs
      · next hstage =>
        obtain rfl := Option.some.inj hs
        exact h.resolve hk hstage
      · cases hs
    · cases hs

theorem Start.invariant (h : Start s) : Invariant w linkOf s := by
  have hruns : ∀ {i run}, s.gen.runs i ≠ some run := fun hi => by
    rw [h.runs] at hi
    cases hi
  have hasked : ∀ {c x}, s.asked c ≠ some x := fun hc => by
    rw [h.asked] at hc
    cases hc
  constructor
  · exact ⟨fun _ _ _ hi => absurd hi hruns, fun _ _ _ hi => absurd hi hruns, fun _ _ _ hi =>
      absurd hi hruns⟩
  · refine ⟨fun k ch hk => ?_, fun k hk => ?_, fun _ _ _ hc => absurd hc hasked⟩
    · rw [h.changes] at hk
      cases hk
    · rw [h.resolved] at hk
      cases hk
  · exact fun _ _ _ _ hi => absurd hi hruns
  · exact fun _ _ _ hi => absurd hi hruns
  · intro id i hi
    rw [h.inFlight] at hi
    cases hi
  · intro id r hr
    rw [h.cache] at hr
    cases hr
  · exact fun _ _ _ _ _ hc => absurd hc hasked
  · exact fun _ _ _ _ hc => absurd hc hasked

/-- In every run whose changes clear the cache in time, no call gets a config from before a change
that had resolved when the call started. -/
theorem fresh_of_timely {s₀ : State} {acts : List Act} (hstart : Start s₀)
    (hrun : Run (Guarded (fun s a t => step w s a = some t) (Timely w linkOf)) s₀ acts s) :
    Fresh linkOf s := by
  have hstep : ∀ s a t, step w s a = some t → Timely w linkOf s a → Invariant w linkOf s →
      Invariant w linkOf t :=
    fun _ _ _ hs hok h => h.step hs hok
  exact (hrun.guarded_invariant hstep hstart.invariant).ended

/-- A run is the run of a call. -/
theorem step_runs {i : ℕ} {run : KeyRotation.Promise} (hs : step w s a = some t)
    (hi : t.gen.runs i = some run) :
    (∃ run, s.gen.runs i = some run) ∨ ∃ id, a = .peer (.ask i id) := by
  unfold step at hs
  split at hs
  · next b =>
    obtain ⟨g, hg, rfl⟩ := Option.map_eq_some_iff.mp hs
    have hgen : (s.after g b).gen = g := by cases b <;> rfl
    rw [hgen] at hi
    cases effect_of_step (KeyRotation.step_cases hg) with
    | cached | joined | settle | expire => exact .inl ⟨run, hi⟩
    | @started c id =>
      by_cases hic : i = c
      · exact .inr ⟨id, by rw [hic]⟩
      · exact .inl ⟨run, (Function.update_of_ne hic ..).symm.trans hi⟩
    | @read j id hj | @finish j id _ _ _ hj =>
      by_cases hij : i = j
      · exact .inl ⟨_, hij ▸ hj⟩
      · exact .inl ⟨run, (Function.update_of_ne hij ..).symm.trans hi⟩
    | @advanced _ j id p p' _ hj _ hruns =>
      rw [hruns] at hi
      by_cases hij : i = j
      · exact .inl ⟨_, hij ▸ hj⟩
      · exact .inl ⟨run, (Function.update_of_ne hij ..).symm.trans hi⟩
  · split at hs
    · cases hs
    · obtain rfl := Option.some.inj hs
      exact .inl ⟨run, hi⟩
  · split at hs
    · split at hs
      · obtain rfl := Option.some.inj hs
        exact .inl ⟨run, hi⟩
      · cases hs
    · cases hs
  · split at hs
    · split at hs
      · obtain rfl := Option.some.inj hs
        exact .inl ⟨run, hi⟩
      · cases hs
    · cases hs

theorem asked_of_run {s₀ : State} {acts : List Act} {i : ℕ} {run : KeyRotation.Promise}
    (h : Run (fun s a t => step w s a = some t) s₀ acts s) (hi : s.gen.runs i = some run) :
    (∃ run, s₀.gen.runs i = some run) ∨ ∃ id, .peer (.ask i id) ∈ acts := by
  induction h with
  | nil => exact .inl ⟨run, hi⟩
  | cons hs _ ih =>
    rcases ih hi with ⟨run, hrun⟩ | ⟨id, hid⟩
    · exact (step_runs hs hrun).imp_right fun ⟨id, hid⟩ => ⟨id, hid ▸ List.mem_cons_self⟩
    · exact .inr ⟨id, List.mem_cons_of_mem _ hid⟩

/-! A client whose networks are changed. -/

open KeyRotation (sampleWorld sampleStart clientEntry rotating returning givenKey)

def reachEntry : LinkEntry := { clientEntry with importedNetworks := some ["10.1.0.0/16"] }

def sampleState : State where
  gen := sampleStart
  changes := fun _ => none
  resolved := []
  clock := 0
  seen := fun _ => 0
  asked := fun _ => none

def changing : List Act := [.write 0 (Table.empty.set "wg0:kA=" reachEntry), .clear 0, .resolve 0]

def downloading : List KeyRotation.Act := [.ask 0 "wg0:kA="] ++ rotating 0 "kB" ++ returning 0

/-- A download starts before the change and reads the store; the next one starts after the change.
-/
def changedMeanwhile : List Act :=
  [.peer (.ask 0 "wg0:kA="), .peer (.readStore 0)] ++ changing ++
    ((KeyRotation.Act.ask 1 "wg0:kA=" :: (rotating 0 "kB").tail) ++ returning 0 ++
      [KeyRotation.Act.settle 1]).map .peer

theorem sampleState_start : Start sampleState :=
  ⟨fun _ => rfl, fun _ => rfl, rfl, rfl, fun _ => rfl, rfl, fun _ => rfl⟩

/-- Only the steps up to the change can be untimely. -/
def isPeer : Act → Bool
  | .peer _ => true
  | _ => false

theorem timely_of_isPeer (h : isPeer a = true) : Timely w (fun _ => "phone") s a := by
  cases a with
  | peer b => cases b <;> first | exact trivial | exact fun _ _ => rfl
  | _ => cases h

/-- The state a change leaves when nothing else happens. -/
def changedState : State :=
  let links := Table.empty.set "wg0:kA=" reachEntry
  ((sampleState.write 0 links).clear 0 ⟨1, sampleStart.links, links, .written⟩).resolve 0
    ⟨1, sampleStart.links, links, .cleared⟩

/-- A download that starts after the change. -/
theorem fresh_of_timely_sample :
    ∃ s, givenKey s.gen 0 = some "kB=" ∧ Fresh (fun _ => "phone") s := by
  have hchange : Run
    (Guarded (fun s a t => step sampleWorld s a = some t) (Timely sampleWorld fun _ => "phone"))
      sampleState changing changedState := by
    refine .cons ⟨rfl, trivial⟩
      (.cons ⟨rfl, fun ch _ i id p hi => ?_⟩ (.cons ⟨rfl, trivial⟩ (.nil _)))
    cases hi
  have hrun :
    ((downloading.map Act.peer).foldlM (Run.checked (step sampleWorld) fun _ a => isPeer a = true)
      changedState).map (fun s => givenKey s.gen 0) = some (some "kB=") := by decide +kernel
  obtain ⟨s, hs, hkey⟩ := Option.map_eq_some_iff.mp hrun
  have hdownload : Run
    (Guarded (fun s a t => step sampleWorld s a = some t) (Timely sampleWorld fun _ => "phone"))
      changedState (downloading.map .peer) s :=
    (Run.of_checked hs).imp fun _ _ _ h => ⟨h.1, timely_of_isPeer h.2⟩
  exact ⟨s, hkey, fresh_of_timely sampleState_start (hchange.append hdownload)⟩

/-- A download that joins one from before the change. -/
theorem changed_meanwhile : Start sampleState ∧ ∃ s,
    Run (fun s a t => step sampleWorld s a = some t) sampleState changedMeanwhile s ∧
    givenKey s.gen 1 = some "kB=" ∧ ¬ Fresh (fun _ => "phone") s := by
  have hrun : ((changedMeanwhile.foldlM (step sampleWorld) sampleState).map fun s =>
      (givenKey s.gen 1, s.asked 1, s.seen 0, (s.gen.runs 1).isNone)) =
      some (some "kB=", some ("wg0:kA=", [0]), 0, true) := by decide +kernel
  have hchange : ((changedMeanwhile.foldlM (step sampleWorld) sampleState).map fun s =>
    (s.changes 0).map fun ch =>
      (ch.time, decide (ch.before.get? "wg0:kA=" = ch.after.get? "wg0:kA="))) =
        some (some (1, false)) := by
    decide +kernel
  obtain ⟨s, hs, h⟩ := Option.map_eq_some_iff.mp hrun
  rw [hs] at hchange
  injection h with hkey h
  injection h with hasked h
  injection h with hseen hnone
  have hrun := Run.of_foldlM hs
  refine ⟨sampleState_start, s, hrun, hkey, fun hfresh => ?_⟩
  obtain ⟨r, hr⟩ : ∃ r, s.gen.calls 1 = some (.ended (some r)) := by
    unfold givenKey at hkey
    split at hkey
    · next r hr => exact ⟨r, hr⟩
    · cases hkey
  obtain ⟨ch, hch, hshape⟩ := Option.map_eq_some_iff.mp (Option.some.inj hchange)
  injection hshape with htime hdiffers
  obtain ⟨i, id', hi, hmeets⟩ := hfresh 1 _ _ r hasked hr
  rcases asked_of_run hrun hi with ⟨run, hnot⟩ | ⟨id, hid⟩
  · cases hnot
  have hcases : i = 0 ∧ id = "wg0:kA=" ∨ i = 1 ∧ id = "wg0:kA=" := by
    simpa [changedMeanwhile, changing, rotating, returning] using hid
  rcases hcases with ⟨rfl, -⟩ | ⟨rfl, -⟩
  · have hle := hmeets 0 List.mem_cons_self ch hch ⟨"wg0:kA=", rfl, of_decide_eq_false hdiffers⟩
    omega
  · rw [hi] at hnone
    cases hnone

end FloppyGuard.WireGuard.Freshness
