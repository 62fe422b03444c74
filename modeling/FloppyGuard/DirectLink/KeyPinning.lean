import FloppyGuard.DirectLink.Ends
import FloppyGuard.Lib.Run
import Mathlib.Logic.Function.Basic

/-! The keys of direct links: heartbeats (`recordStatus`) learn them, and updates of the links take
them back. Every read and every write of the table is a step of its own. -/
namespace FloppyGuard.DirectLink.KeyPinning

/-- A row with the keys its sides have reported; a key is never empty. -/
structure Row extends Link where
  keys : PublicKeys

/-- The body of an update: `reset_keys`, and the sanitized rest. -/
structure Request where
  resetKeys : Bool
  patch : LinkPatch

end KeyPinning

def Link.agentOn (l : Link) : Side → ℕ
  | .a => l.agentAId
  | .b => l.agentBId

def PublicKeys.on (keys : PublicKeys) : Side → Option String
  | .a => keys.a
  | .b => keys.b

def PublicKeys.set (keys : PublicKeys) (side : Side) (key : Option String) : PublicKeys :=
  match side with
  | .a => { keys with a := key }
  | .b => { keys with b := key }

namespace KeyPinning

/-- The row of `existing` moves the side to another agent. -/
def Request.moves (request : Request) (existing : Link) (side : Side) : Bool :=
  (request.patch.merge existing).agentOn side ≠ existing.agentOn side

/-- `patch[side_public_key] = null`: a reset, or a side that moves in the view of the call. -/
def Request.clears (request : Request) (existing : Link) (side : Side) : Bool :=
  request.resetKeys || request.moves existing side

def Row.patched (request : Request) (existing : Link) (row : Row) : Row where
  toLink := request.patch.merge row.toLink
  keys :=
    { a := if request.clears existing .a then none else row.keys.a
      b := if request.clears existing .b then none else row.keys.b }

theorem Row.patched_id (request : Request) (existing : Link) (row : Row) :
    (row.patched request existing).id = row.id := rfl

/-- What a heartbeat writes to a row, its status columns aside. -/
structure Learn where
  id : ℕ
  side : Side
  key : Option String

structure Heartbeat where
  agentId : ℕ
  reported : ℕ → Option (Option String)
  pending : List Learn

structure Update where
  request : Request
  existing : Row

structure State where
  rows : Rows Row fun r => r.id
  heartbeats : ℕ → Option Heartbeat
  updates : ℕ → Option Update

inductive Act
  /-- the heartbeat reads the links of its agent; the keys by link id, as the agent reports them -/
  | heartbeat (h agentId : ℕ) (reported : ℕ → Option (Option String))
  | record (h : ℕ)
  | update (u id : ℕ) (request : Request)
  /-- a check of the complete link fails -/
  | refuse (u : ℕ)
  | patch (u : ℕ)

/-- `recordStatus` on one row: a key is only learned where the row shows none. -/
def learn (agentId : ℕ) (reported : ℕ → Option (Option String)) (row : Row) : Option Learn :=
  let side := if row.agentAId = agentId then .a else .b
  (reported row.id).map fun key =>
    ⟨row.id, side, if (row.keys.on side).isNone then key.filter isWgPublicKey else none⟩

namespace State

variable (s : State)

def row (id : ℕ) : Option Row := s.rows.rows.find? fun r => r.id = id

def key (id : ℕ) (side : Side) : Option String := (s.row id).bind fun r => r.keys.on side

def setKey (l : Learn) : Rows Row fun r => r.id :=
  match l.key with
  | some key =>
    s.rows.patch (fun r => r.id = l.id) (fun r => { r with keys := r.keys.set l.side (some key) })
      fun _ => rfl
  | none => s.rows

end State

def step (s : State) : Act → Option State
  | .heartbeat h agentId reported =>
    let rows := s.rows.rows.filter fun r => r.agentAId = agentId || r.agentBId = agentId
    some { s with
      heartbeats := Function.update s.heartbeats h
        (some ⟨agentId, reported, rows.filterMap (learn agentId reported)⟩) }
  | .record h =>
    match s.heartbeats h with
    | some ⟨agentId, reported, l :: pending⟩ =>
      some { s with
          rows := s.setKey l,
          heartbeats := Function.update s.heartbeats h (some ⟨agentId, reported, pending⟩) }
    | _ => none
  | .update u id request =>
    (s.row id).map fun existing =>
      { s with updates := Function.update s.updates u (some ⟨request, existing⟩) }
  | .refuse u => some { s with updates := Function.update s.updates u none }
  | .patch u =>
    match s.updates u with
    | some ⟨request, existing⟩ =>
      let merged := request.patch.merge existing.toLink
      if merged.agentAId = merged.agentBId then none
      else some { s with
        rows := s.rows.patch (fun r => r.id = existing.id) (Row.patched request existing.toLink)
          (Row.patched_id request existing.toLink)
        updates := Function.update s.updates u none }
    | none => none

/-! What a step can do. -/

inductive Step (s : State) : Act → State → Prop
  | heartbeat {h agentId reported} : Step s (.heartbeat h agentId reported)
      { s with heartbeats := Function.update s.heartbeats h (some ⟨agentId, reported,
          (s.rows.rows.filter fun r => r.agentAId = agentId || r.agentBId = agentId).filterMap
            (learn agentId reported)⟩) }
  | record {h agentId reported l pending}
      (hh : s.heartbeats h = some ⟨agentId, reported, l :: pending⟩) :
      Step s (.record h)
        { s with
          rows := s.setKey l,
          heartbeats := Function.update s.heartbeats h (some ⟨agentId, reported, pending⟩) }
  | update {u id request existing} (hr : s.row id = some existing) : Step s (.update u id request)
      { s with updates := Function.update s.updates u (some ⟨request, existing⟩) }
  | refuse {u} : Step s (.refuse u) { s with updates := Function.update s.updates u none }
  | patch {u request existing} (hu : s.updates u = some ⟨request, existing⟩) : Step s (.patch u)
      { s with
        rows := s.rows.patch (fun r => r.id = existing.id) (Row.patched request existing.toLink)
          (Row.patched_id request existing.toLink)
        updates := Function.update s.updates u none }

variable {s t : State} {a : Act} {id : ℕ} {side : Side} {k : String}

theorem step_cases (h : step s a = some t) : Step s a t := by
  unfold step at h
  split at h
  · exact Option.some.inj h ▸ .heartbeat
  · split at h
    · next hh => exact Option.some.inj h ▸ .record hh
    · cases h
  · obtain ⟨existing, hr, rfl⟩ := Option.map_eq_some_iff.mp h
    exact .update hr
  · exact Option.some.inj h ▸ .refuse
  · split at h
    · next hu =>
      dsimp only at h
      split at h
      · cases h
      · exact Option.some.inj h ▸ .patch hu
    · cases h

/-! The condition: what a call writes still fits the row it finds. -/

/-- An update takes the key of a side back: a reset, or the side moves to another agent. -/
def releases (s : State) (id : ℕ) (side : Side) : Act → Bool
  | .patch u =>
    match s.updates u, s.row id with
    | some c, some row =>
      c.existing.id = id && (c.request.resetKeys || c.request.moves row.toLink side)
    | _, _ => false
  | _ => false

/-- The agent is still on the side, and the side has no other key. -/
def fitsLearn (s : State) (agentId : ℕ) (l : Learn) : Bool :=
  match l.key, s.row l.id with
  | some key, some row => row.agentOn l.side = agentId && (row.keys.on l.side).all (· = key)
  | _, _ => true

/-- A side that moves in the view of the call moves. -/
def fitsPatch (s : State) (c : Update) (side : Side) : Bool :=
  match s.row c.existing.id with
  | some row =>
    c.request.resetKeys || !c.request.moves c.existing.toLink side || (row.keys.on side).isNone ||
      c.request.moves row.toLink side
  | none => true

def fits (s : State) : Act → Bool
  | .record h =>
    match s.heartbeats h with
    | some ⟨agentId, _, l :: _⟩ => fitsLearn s agentId l
    | _ => true
  | .patch u => (s.updates u).all fun c => fitsPatch s c .a && fitsPatch s c .b
  | _ => true

/-! Rows after a step. -/

theorem on_set {keys : PublicKeys} {side' : Side} {key : Option String} :
    (keys.set side' key).on side = if side = side' then key else keys.on side := by
  cases side <;> cases side' <;> rfl

theorem key_setKey {l : Learn} {key : String} (hl : l.key = some key) {row : Row}
    (hrow : s.row id = some row) :
    ({ s with rows := s.setKey l } : State).key id side =
      if id = l.id ∧ side = l.side then some key else s.key id side := by
  rw [State.key, State.row, State.setKey, hl]
  dsimp only
  rw [Rows.find?_patch, ← State.row, hrow, State.key, hrow]
  by_cases hid : id = l.id
  · simp only [hid, if_true, true_and, Option.map_some, Option.bind_some, on_set]
  · simp [hid]

theorem setKey_none {l : Learn} (hl : l.key = none) : s.setKey l = s.rows := by
  rw [State.setKey, hl]

theorem on_patched {request : Request} {existing : Link} {row : Row} :
    (row.patched request existing).keys.on side = if request.clears existing side then none
    else row.keys.on side := by
  cases side <;> rfl

theorem key_patched {request : Request} {existing : Link} {n : ℕ} {updates : ℕ → Option Update} :
    ({ s with
      rows :=
  s.rows.patch (fun r => r.id = n) (Row.patched request existing) (Row.patched_id request existing)
      updates } : State).key id side = if id = n ∧ request.clears existing side = true then none
        else s.key id side := by
  rw [State.key, State.row]
  dsimp only
  rw [Rows.find?_patch, ← State.row, State.key]
  by_cases hid : id = n
  · cases s.row id <;> simp [hid, on_patched]
  · simp [hid]

/-! One step. -/

/-- A key is kept by every step that fits and does not release it. -/
theorem Step.keeps (hs : Step s a t) (hfit : fits s a = true) (hkeep : releases s id side a = false)
    (hk : s.key id side = some k) :
    t.key id side = some k := by
  obtain ⟨row, hrow, hon⟩ := Option.bind_eq_some_iff.mp hk
  cases hs with
  | heartbeat => exact hk
  | update _ => exact hk
  | refuse => exact hk
  | @record h agentId reported l pending hh =>
    cases hl : l.key with
    | none =>
      rw [setKey_none hl]
      exact hk
    | some key =>
      change ({ s with rows := s.setKey l } : State).key id side = some k
      rw [key_setKey hl hrow]
      split
      · next hsame =>
        obtain ⟨rfl, rfl⟩ := hsame
        rw [fits, hh] at hfit
        simp only [fitsLearn, hl, hrow, hon, Option.all_some, Bool.and_eq_true, decide_eq_true_eq]
          at hfit
        rw [hfit.2]
      · exact hk
  | @patch u request existing hu =>
    rw [key_patched, if_neg]
    · exact hk
    · rintro ⟨hid, hclears⟩
      obtain ⟨hreset, hmoves⟩ : request.resetKeys = false ∧
          request.moves row.toLink side = false := by
        simpa [releases, hu, hid.symm, hrow] using hkeep
      rw [Request.clears, hreset, Bool.false_or] at hclears
      have hfits : fitsPatch s ⟨request, existing⟩ side = true := by
        rw [fits, hu, Option.all_some, Bool.and_eq_true] at hfit
        cases side
        · exact hfit.1
        · exact hfit.2
      rw [fitsPatch] at hfits
      dsimp only at hfits
      rw [← hid, hrow] at hfits
      simp [hreset, hmoves, hon, hclears] at hfits

/-- A key that a step stores is one the heartbeat's agent has reported, and that agent is on the
side. -/
theorem Step.stores (hs : Step s a t) (hfit : fits s a = true) (hnew : s.key id side ≠ some k)
    (hk : t.key id side = some k) :
    ∃ h b l pending row, a = .record h ∧ s.heartbeats h = some b ∧ b.pending = l :: pending ∧
    l.id = id ∧ l.key = some k ∧
      s.row id = some row ∧ row.agentOn side = b.agentId := by
  cases hs with
  | heartbeat => exact absurd hk hnew
  | update _ => exact absurd hk hnew
  | refuse => exact absurd hk hnew
  | @record h agentId reported l pending hh =>
    cases hl : l.key with
    | none =>
      rw [setKey_none hl] at hk
      exact absurd hk hnew
    | some key =>
      obtain ⟨row, hrow⟩ : ∃ row, s.row id = some row := by
        cases hrow : s.row id with
        | some row => exact ⟨row, rfl⟩
        | none =>
          exfalso
          change ((s.setKey l).rows.find? fun r => r.id = id).bind (fun r => r.keys.on side) =
            some k at hk
          rw [State.setKey, hl] at hk
          dsimp only at hk
          rw [Rows.find?_patch, ← State.row, hrow] at hk
          cases hk
      change ({ s with rows := s.setKey l } : State).key id side = some k at hk
      rw [key_setKey hl hrow] at hk
      split at hk
      · next hsame =>
        obtain ⟨rfl, rfl⟩ := hsame
        rw [fits, hh] at hfit
        simp only [fitsLearn, hl, hrow, Bool.and_eq_true, decide_eq_true_eq] at hfit
        exact ⟨h, _, l, pending, row, rfl, hh, rfl, rfl, hl.trans hk, hrow, hfit.1⟩
      · exact absurd hk hnew
  | patch _ =>
    rw [key_patched] at hk
    split at hk
    · cases hk
    · exact absurd hk hnew

/-- A heartbeat only learns what its agent has reported. -/
def Honest (s : State) : Prop :=
  ∀ h b, s.heartbeats h = some b → ∀ l ∈ b.pending, ∀ key, l.key = some key →
    b.reported l.id = some (some key)

theorem learn_reported {agentId : ℕ} {reported : ℕ → Option (Option String)} {row : Row} {l : Learn}
    {key : String}
    (h : learn agentId reported row = some l) (hl : l.key = some key) :
    reported l.id = some (some key) := by
  obtain ⟨r, hr, rfl⟩ := Option.map_eq_some_iff.mp h
  have hkey := (Option.ite_none_right_eq_some.mp hl).2
  rw [hr, (Option.filter_eq_some_iff.mp hkey).1]

theorem Honest.step (h : Honest s) (hs : Step s a t) : Honest t := by
  cases hs with
  | update _ => exact h
  | refuse => exact h
  | patch _ => exact h
  | @heartbeat n agentId reported =>
    intro m b hb l hl key hkey
    change Function.update s.heartbeats n _ m = some b at hb
    rw [Function.update_apply] at hb
    split at hb
    · cases hb
      obtain ⟨row, -, hlearn⟩ := List.mem_filterMap.mp hl
      exact learn_reported hlearn hkey
    · exact h m b hb l hl key hkey
  | @record n agentId reported l' pending hh =>
    intro m b hb l hl key hkey
    change Function.update s.heartbeats n _ m = some b at hb
    rw [Function.update_apply] at hb
    split at hb
    · cases hb
      exact h n _ hh l (List.mem_cons_of_mem _ hl) key hkey
    · exact h m b hb l hl key hkey

/-- The steps whose writes fit the row they find. -/
def Fitting : State → Act → State → Prop :=
  Guarded (fun s a t => step s a = some t) fun s a => fits s a = true

/-- Whatever the heartbeats and updates, a key stays until an update releases it, and a key that is
stored comes from the agent on the side, as long as every write still fits the row it finds. -/
theorem keys_stay_pinned {s₀ s : State} {acts : List Act} (hstart : ∀ h, s₀.heartbeats h = none)
    (hrun : Run Fitting s₀ acts s) :
    (∀ acts' t id side k, Run (Guarded Fitting fun s a => releases s id side a = false) s acts' t →
      s.key id side = some k → t.key id side = some k) ∧
    ∀ a t id side k, Fitting s a t → s.key id side ≠ some k → t.key id side = some k →
      ∃ h b row, a = .record h ∧ s.heartbeats h = some b ∧ b.reported id = some (some k) ∧
      s.row id = some row ∧
        row.agentOn side = b.agentId := by
  have hhonest : Honest s := by
    refine hrun.guarded_invariant (fun _ _ _ hs _ h => h.step (step_cases hs)) fun h b hb => ?_
    rw [hstart] at hb
    cases hb
  constructor
  · intro acts' t id side k hkept hk
    exact hkept.guarded_invariant (I := fun s => s.key id side = some k)
      (fun _ _ _ hs hkeep hk => (step_cases hs.1).keeps hs.2 hkeep hk) hk
  · intro a t id side k hs hnew hk
    obtain ⟨h, b, l, pending, row, ha, hb, hpending, rfl, hl, hrow, hagent⟩ :=
      (step_cases hs.1).stores hs.2 hnew hk
    exact ⟨h, b, row, ha, hb, hhonest h b hb l (hpending ▸ List.mem_cons_self) k hl, hrow, hagent⟩

/-! A key that is learned and kept, and keys that are not. -/

def sampleKey (c : Char) : String := String.ofList (List.replicate 42 c ++ ['A', '='])

def reporting (c : Char) (id : ℕ) : Option (Option String) :=
  if id = 1 then some (some (sampleKey c)) else none

/-- The link of the agents 1 and 2. -/
def sampleStart : State where
  rows := Rows.empty.insert (fun id => ⟨sampleRow id, ⟨none, none⟩⟩) fun _ => rfl
  heartbeats := fun _ => none
  updates := fun _ => none

def keepPatch : LinkPatch := ⟨none, none, none, none, none, none, none, none, none, none⟩

/-- Another key is reported, and the name is edited. -/
def later : List Act :=
  [.heartbeat 1 1 (reporting 'y'), .record 1,
    .update 0 1 ⟨false, { keepPatch with name := some "x" }⟩, .patch 0]

theorem keys_stay_pinned_sample : ∃ s t, s.key 1 .a = some (sampleKey 'x') ∧ Run Fitting s later t ∧
    t.key 1 .a = some (sampleKey 'x') := by
  have hlearned :
    (([.heartbeat 0 1 (reporting 'x'), .record 0] : List Act).foldlM (Run.checked step fun s a =>
      fits s a = true)
      sampleStart).map
        (fun s =>
          (s.key 1 .a, (later.foldlM (Run.checked (Run.checked step fun s a => fits s a = true)
        fun s a => releases s 1 .a a = false) s).isSome)) = some (some (sampleKey 'x'), true) := by
    decide +kernel
  obtain ⟨s, hs, h⟩ := Option.map_eq_some_iff.mp hlearned
  injection h with hkey hlater
  obtain ⟨t, ht⟩ := Option.isSome_iff_exists.mp hlater
  have hfirst : Run Fitting sampleStart _ s := Run.of_checked hs
  have hkept : Run (Guarded Fitting fun s a => releases s 1 .a a = false) s later t :=
    (Run.of_checked ht).imp fun s a t h => by
      have hfit := Run.checked_eq_some.mp h.1
      exact ⟨hfit, h.2⟩
  exact ⟨s, t, hkey, hkept.of_guarded, (keys_stay_pinned (fun _ => rfl) hfirst).1 later t 1 .a _
    hkept hkey⟩

/-- Two first reports at once: the second replaces the key the first has stored, and no update
releases it. -/
def bothFirst : List Act :=
  [.heartbeat 0 1 (reporting 'x'), .heartbeat 1 1 (reporting 'y'), .record 0, .record 1]

/-- The side moves to agent 3 between the read and the write of agent 1. -/
def movedMeanwhile : List Act :=
  [.heartbeat 0 1 (reporting 'x'), .update 0 1 ⟨false, { keepPatch with agentAId := some 3 }⟩,
    .patch 0, .record 0]

theorem keys_do_not_stay :
    (∃ s t, Run (fun s a t => step s a = some t) sampleStart (bothFirst.take 3) s ∧
      s.key 1 .a = some (sampleKey 'x') ∧ step s (.record 1) = some t ∧
      releases s 1 .a (.record 1) = false ∧
      t.key 1 .a = some (sampleKey 'y')) ∧
    ∃ s t, Run (fun s a t => step s a = some t) sampleStart (movedMeanwhile.take 3) s ∧
      s.key 1 .a = none ∧ step s (.record 0) = some t ∧ t.key 1 .a = some (sampleKey 'x') ∧
      ((s.row 1).map fun row => row.agentOn .a) = some 3 ∧
      ((s.heartbeats 0).map Heartbeat.agentId) = some 1 := by
  constructor
  · have hrun : (((bothFirst.take 3).foldlM step sampleStart).bind fun s =>
        (step s (.record 1)).map fun t => (s.key 1 .a, releases s 1 .a (.record 1), t.key 1 .a)) =
        some (some (sampleKey 'x'), false, some (sampleKey 'y')) := by decide +kernel
    obtain ⟨s, hs, h⟩ := Option.bind_eq_some_iff.mp hrun
    obtain ⟨t, ht, h⟩ := Option.map_eq_some_iff.mp h
    injection h with hkey h
    injection h with hkeep hnew
    exact ⟨s, t, Run.of_foldlM hs, hkey, ht, hkeep, hnew⟩
  · have hrun : (((movedMeanwhile.take 3).foldlM step sampleStart).bind fun s =>
      (step s (.record 0)).map fun t =>
        (s.key 1 .a, t.key 1 .a, (s.row 1).map fun row => row.agentOn .a,
          (s.heartbeats 0).map Heartbeat.agentId)) =
        some (none, some (sampleKey 'x'), some 3, some 1) := by decide +kernel
    obtain ⟨s, hs, h⟩ := Option.bind_eq_some_iff.mp hrun
    obtain ⟨t, ht, h⟩ := Option.map_eq_some_iff.mp h
    injection h with hkey h
    injection h with hnew h
    injection h with hagent hby
    exact ⟨s, t, Run.of_foldlM hs, hkey, ht, hnew, hagent, hby⟩

end KeyPinning

end FloppyGuard.DirectLink
