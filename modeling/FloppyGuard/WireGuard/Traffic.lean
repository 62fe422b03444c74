import FloppyGuard.Lib.Run
import FloppyGuard.Lib.Table
import Mathlib.Algebra.GroupWithZero.Nat
import Mathlib.Algebra.Order.BigOperators.Group.List
import Mathlib.Algebra.Order.Group.Nat

/-! The traffic history (`_pollBandwidth`, `persistBandwidthDelta`, `_migrateBandwidthHistoryKey`):
the counters of the kernel, the baseline the deltas are taken from, and what is written. A step ends
at an await. -/
namespace FloppyGuard.WireGuard.Traffic

inductive Side
  | rx
  | tx
deriving DecidableEq

/-- `rxBytes` and `txBytes`. -/
abbrev Counter := Side → ℕ

inductive Resolution
  | minute
  | quarter
  | day
deriving DecidableEq

/-- `BW_BUCKETS` -/
def buckets : List Resolution := [.minute, .quarter, .day]

/-- One upsert; `poll` is the number of the poll it belongs to. -/
structure Entry where
  poll : ℕ
  key : String
  resolution : Resolution
  delta : Counter

def Entry.id (e : Entry) : ℕ × String × Resolution := (e.poll, e.key, e.resolution)

def counterDelta (curr prev : ℕ) : ℕ := if prev ≤ curr then curr - prev else curr

/-- The upserts of `persistBandwidthDelta`. -/
def persistBandwidthDelta (poll : ℕ) (key : String) (delta : Counter) : List Entry :=
  buckets.map fun resolution => ⟨poll, key, resolution, delta⟩

/-- The upserts of one peer of the snapshot; a peer that the baseline does not have is skipped. -/
def peerDeltas (poll : ℕ) (prevSnap : Table String Counter) (p : String × Counter) : List Entry :=
  match prevSnap.get? p.1 with
  | some prev => persistBandwidthDelta poll p.1 fun side => counterDelta (p.2 side) (prev side)
  | none => []

/-- The upserts of one poll. -/
def deltas (poll : ℕ) (prevSnap snap : Table String Counter) : List Entry :=
  snap.entries.flatMap (peerDeltas poll prevSnap)

inductive Poll
  | idle
  | dumping
  /-- `none`: the dump has failed -/
  | dumped (raw : Option (Table String Counter))
  /-- the upserts that are still to come -/
  | persisting (todo : List Entry)

/-- `seen` are the keys a peer has ever had, `rotations` those whose bookkeeping is still to come,
`advanced` the bytes each key's counters have advanced since the start. -/
structure State where
  kernel : Table String Counter
  seen : List String
  bwPrev : Option (Table String Counter)
  poll : Poll
  polls : ℕ
  written : List Entry
  rotations : List (String × String)
  advanced : String → Counter

inductive Act
  | count (key : String) (side : Side) (n : ℕ)
  /-- the counters restart -/
  | reset (key : String)
  | come (key : String)
  | go (key : String)
  | tick
  | dump
  | dumpFails
  | settle
  | write
  | writeFails
  | finish
  /-- `wg genkey` for the peer of an old key; `wg set` takes the old peer off and adds the new one
  with `go` and `come` -/
  | rotate (old new : String)
  | migrate (old new : String)
deriving DecidableEq

def bump (c : Counter) (side : Side) (n : ℕ) : Counter := fun d => if d = side then c d + n else c d

/-- `_migrateBandwidthHistoryKey` -/
def migrateKey (old new : String) (prev : Table String Counter) : Table String Counter :=
  match prev.get? old with
  | some c => (prev.set new c).erase old
  | none => prev

def step (s : State) : Act → Option State
  | .count key side n => (s.kernel.get? key).map fun c =>
      { s with
        kernel := s.kernel.set key (bump c side n)
        advanced := fun k => if k = key then bump (s.advanced k) side n else s.advanced k }
  | .reset key => (s.kernel.get? key).map fun _ => { s with kernel := s.kernel.set key 0 }
  | .come key =>
    if key ∈ s.kernel.keys then none
    else some { s with kernel := s.kernel.set key 0, seen := key :: s.seen }
  | .go key => some { s with kernel := s.kernel.erase key }
  | .tick =>
    match s.poll with
    | .idle => some { s with poll := .dumping, polls := s.polls + 1 }
    | _ => some s
  | .dump =>
    match s.poll with
    | .dumping => some { s with poll := .dumped (some s.kernel) }
    | _ => none
  | .dumpFails =>
    match s.poll with
    | .dumping => some { s with poll := .dumped none }
    | _ => none
  | .settle =>
    match s.poll with
    | .dumped none => some { s with poll := .idle }
    | .dumped (some snap) =>
      -- the baseline moves on before anything is written
      some { s with
        bwPrev := some snap
        poll := match s.bwPrev with
          | some prevSnap => .persisting (deltas s.polls prevSnap snap)
          | none => .idle }
    | _ => none
  | .write =>
    match s.poll with
    | .persisting (e :: todo) =>
      some { s with poll := .persisting todo, written := s.written ++ [e] }
    | _ => none
  | .writeFails =>
    match s.poll with
    -- the other resolutions of the peer are skipped
    | .persisting (e :: todo) =>
      some { s with poll := .persisting (todo.dropWhile (·.key = e.key)) }
    | _ => none
  | .finish =>
    match s.poll with
    | .persisting [] => some { s with poll := .idle }
    | _ => none
  | .rotate old new =>
    if new ∈ s.seen ∨ old = new then none
    else some { s with seen := new :: s.seen, rotations := (old, new) :: s.rotations }
  | .migrate old new =>
    if (old, new) ∈ s.rotations then
      some { s with
          bwPrev := s.bwPrev.map (migrateKey old new), rotations := s.rotations.erase (old, new) }
    else none

/-! What a step can do. -/

def Poll.todo : Poll → List Entry
  | .persisting todo => todo
  | _ => []

namespace State

variable (s : State)

/-- What is written and what the poll is about to write. -/
def entries : List Entry := s.written ++ s.poll.todo

/-- The counter of a key, where it has a peer. -/
def current (key : String) : Counter := (s.kernel.get? key).getD 0

end State

inductive Step (s : State) : Act → State → Prop
  | count {key side n c} (hc : s.kernel.get? key = some c) : Step s (.count key side n)
      { s with
        kernel := s.kernel.set key (bump c side n)
        advanced := fun k => if k = key then bump (s.advanced k) side n else s.advanced k }
  /-- counters restart, and peers come and go -/
  | restart {a kernel seen} (hseen : s.seen ⊆ seen)
      (hkernel : ∀ key, (kernel.get? key).getD 0 = 0 ∨ (kernel.get? key).getD 0 = s.current key) :
      Step s a { s with kernel, seen }
  | busy : Step s .tick s
  | begin (hpoll : s.poll = .idle) : Step s .tick { s with poll := .dumping, polls := s.polls + 1 }
  | dump (hpoll : s.poll = .dumping) : Step s .dump { s with poll := .dumped (some s.kernel) }
  | dumpFails (hpoll : s.poll = .dumping) : Step s .dumpFails { s with poll := .dumped none }
  /-- nothing is left to do -/
  | done {a} (htodo : s.poll.todo = []) : Step s a { s with poll := .idle }
  | settle {snap} (hpoll : s.poll = .dumped (some snap)) : Step s .settle
      { s with
        bwPrev := some snap
        poll := match s.bwPrev with
          | some prevSnap => .persisting (deltas s.polls prevSnap snap)
          | none => .idle }
  | write {e todo} (hpoll : s.poll = .persisting (e :: todo)) :
      Step s .write { s with poll := .persisting todo, written := s.written ++ [e] }
  | writeFails {e todo} (hpoll : s.poll = .persisting (e :: todo)) :
      Step s .writeFails { s with poll := .persisting (todo.dropWhile (·.key = e.key)) }
  | rotate {old new} (hnew : new ∉ s.seen) :
      Step s (.rotate old new)
        { s with seen := new :: s.seen, rotations := (old, new) :: s.rotations }
  | migrate {old new} (hmem : (old, new) ∈ s.rotations) : Step s (.migrate old new)
      { s with
        bwPrev := s.bwPrev.map (migrateKey old new), rotations := s.rotations.erase (old, new) }

variable {s t : State} {a : Act} {acts : List Act} {start : List String} {key k : String}
  {r r' : Resolution} {side : Side}
  {xs ys : List Entry} {prevSnap snap : Table String Counter} {n : ℕ}

theorem step_cases (h : step s a = some t) : Step s a t := by
  have hset : ∀ k k', ((s.kernel.set k 0).get? k').getD 0 = 0 ∨
      ((s.kernel.set k 0).get? k').getD 0 = s.current k' := by
    intro k k'
    rw [Table.get?_set]
    split
    · exact .inl rfl
    · exact .inr rfl
  unfold step at h
  split at h
  · obtain ⟨c, hc, rfl⟩ := Option.map_eq_some_iff.mp h
    exact .count hc
  · obtain ⟨c, -, rfl⟩ := Option.map_eq_some_iff.mp h
    exact .restart (List.Subset.refl _) (hset _)
  · split at h
    · cases h
    · exact Option.some.inj h ▸ .restart (List.subset_cons_self _ _) (hset _)
  · refine Option.some.inj h ▸ .restart (List.Subset.refl _) fun k => ?_
    rw [Table.get?_erase]
    split
    · exact .inl rfl
    · exact .inr rfl
  · split at h
    · next hpoll => exact Option.some.inj h ▸ .begin hpoll
    · exact Option.some.inj h ▸ .busy
  · split at h
    · next hpoll => exact Option.some.inj h ▸ .dump hpoll
    · cases h
  · split at h
    · next hpoll => exact Option.some.inj h ▸ .dumpFails hpoll
    · cases h
  · split at h
    · next hpoll => exact Option.some.inj h ▸ .done (by rw [hpoll]; rfl)
    · next hpoll => exact Option.some.inj h ▸ .settle hpoll
    · cases h
  · split at h
    · next hpoll => exact Option.some.inj h ▸ .write hpoll
    · cases h
  · split at h
    · next hpoll => exact Option.some.inj h ▸ .writeFails hpoll
    · cases h
  · split at h
    · next hpoll => exact Option.some.inj h ▸ .done (by rw [hpoll]; rfl)
    · cases h
  · split at h
    · cases h
    · next hnew => exact Option.some.inj h ▸ .rotate fun hseen => hnew (.inl hseen)
  · split at h
    · next hmem => exact Option.some.inj h ▸ .migrate hmem
    · cases h

theorem entries_of_todo (h : s.poll.todo = []) : s.entries = s.written := by
  rw [State.entries, h, List.append_nil]

/-! The bytes of entries. -/

/-- The bytes of a key in one resolution. -/
def bytes (xs : List Entry) (key : String) (r : Resolution) (side : Side) : ℕ :=
  ((xs.filter fun e => e.key = key ∧ e.resolution = r).map fun e => e.delta side).sum

theorem bytes_append : bytes (xs ++ ys) key r side = bytes xs key r side + bytes ys key r side := by
  simp [bytes]

theorem bytes_sublist (h : xs.Sublist ys) : bytes xs key r side ≤ bytes ys key r side :=
  ((h.filter _).map _).sum_le_sum fun _ _ => Nat.zero_le _

/-- Nothing was counted. -/
def Entry.Empty (e : Entry) : Prop := e.delta .rx = 0 ∧ e.delta .tx = 0

instance Entry.decidableEmpty (e : Entry) : Decidable e.Empty := inferInstanceAs (Decidable (_ ∧ _))

theorem bytes_of_empty (h : ∀ e ∈ xs, e.key = key → e.Empty) : bytes xs key r side = 0 := by
  unfold bytes
  refine List.sum_eq_zero fun b hb => ?_
  obtain ⟨e, he, rfl⟩ := List.mem_map.mp hb
  rw [List.mem_filter] at he
  obtain ⟨hrx, htx⟩ := h e he.1 (of_decide_eq_true he.2).1
  cases side with
  | rx => exact hrx
  | tx => exact htx

theorem bytes_of_absent (h : ∀ e ∈ xs, e.key ≠ key) : bytes xs key r side = 0 :=
  bytes_of_empty fun e he hkey => absurd hkey (h e he)

theorem bytes_persist {delta : Counter} :
    bytes (persistBandwidthDelta n k delta) key r side = if k = key then delta side else 0 := by
  split
  · next h =>
    subst h
    cases r <;> simp [bytes, persistBandwidthDelta, buckets]
  · next h =>
    refine bytes_of_absent fun e he => ?_
    obtain ⟨_, -, rfl⟩ := List.mem_map.mp he
    exact h

/-- What a poll adds for one key. -/
def due (prevSnap snap : Table String Counter) (key : String) (side : Side) : ℕ :=
  match snap.get? key, prevSnap.get? key with
  | some curr, some prev => counterDelta (curr side) (prev side)
  | _, _ => 0

theorem bytes_peerDeltas {p : String × Counter} : bytes (peerDeltas n prevSnap p) key r side =
    if p.1 = key then
      match prevSnap.get? key with
      | some prev => counterDelta (p.2 side) (prev side)
      | none => 0
    else 0 := by
  unfold peerDeltas
  by_cases hkey : p.1 = key
  · subst hkey
    rw [if_pos rfl]
    cases prevSnap.get? p.1 with
    | none => rfl
    | some prev => exact bytes_persist.trans (if_pos rfl)
  · rw [if_neg hkey]
    cases prevSnap.get? p.1 with
    | none => rfl
    | some prev => exact bytes_persist.trans (if_neg hkey)

theorem bytes_deltas : bytes (deltas n prevSnap snap) key r side = due prevSnap snap key side := by
  obtain ⟨entries, hnodup⟩ := snap
  rw [due, deltas, Table.get?]
  dsimp only
  induction entries with
  | nil => rfl
  | cons p ps ih =>
    rw [List.map_cons, List.nodup_cons] at hnodup
    rw [List.flatMap_cons, bytes_append, ih hnodup.2, bytes_peerDeltas, List.find?_cons]
    by_cases hk : p.1 = key
    · have hrest : ps.find? (fun q => decide (q.1 = key)) = none := by
        rw [List.find?_eq_none]
        intro q hq hqk
        exact hnodup.1 (List.mem_map.mpr ⟨q, hq, (of_decide_eq_true hqk).trans hk.symm⟩)
      simp only [hk, hrest, decide_true, if_true, Option.map_none, Option.map_some, Nat.add_zero]
      cases prevSnap.get? key with
      | none => rfl
      | some prev => rfl
    · simp [hk]

theorem counterDelta_le {curr prev : ℕ} : counterDelta curr prev ≤ curr := by
  unfold counterDelta
  split <;> omega

theorem counterDelta_self {curr : ℕ} : counterDelta curr curr = 0 := by
  simp [counterDelta]

theorem counterDelta_zero {prev : ℕ} : counterDelta 0 prev = 0 :=
  Nat.le_zero.mp counterDelta_le

theorem counterDelta_add {curr prev : ℕ} :
    counterDelta (curr + n) prev ≤ counterDelta curr prev + n := by
  unfold counterDelta
  split <;> split <;> omega

/-! Nothing is counted twice. -/

/-- `start` are the keys of the first kernel; every other key's counters have started from zero
since. -/
structure Inv (start : List String) (s : State) : Prop where
  seen : start ⊆ s.seen
  rotations : ∀ p ∈ s.rotations, p.2 ∉ start
  total : ∀ key r side, bytes s.entries key r side ≤ s.advanced key side
  base : ∀ prev key b, s.bwPrev = some prev → prev.get? key = some b → ∀ r side,
    bytes s.entries key r side + counterDelta (s.current key side) (b side) ≤ s.advanced key side
  raw : ∀ snap key v, s.poll = .dumped (some snap) → snap.get? key = some v → ∀ r side,
    bytes s.entries key r side + counterDelta (s.current key side) (v side) ≤ s.advanced key side
  both : ∀ snap prev key v b, s.poll = .dumped (some snap) → s.bwPrev = some prev →
    snap.get? key = some v →
    prev.get? key = some b → ∀ r side, bytes s.entries key r side + counterDelta (v side) (b side) +
      counterDelta (s.current key side) (v side) ≤ s.advanced key side
  born : ∀ key ∉ start, ∀ side, s.current key side ≤ s.advanced key side
  bornRaw : ∀ snap key v, key ∉ start → s.poll = .dumped (some snap) → snap.get? key = some v →
    ∀ side,
    v side + counterDelta (s.current key side) (v side) ≤ s.advanced key side

/-- The kernel moves: no counter grows more than its key has advanced. -/
theorem Inv.move (h : Inv start s) {kernel : Table String Counter} {seen : List String}
    {advanced : String → Counter}
    (hseen : s.seen ⊆ seen)
    (hdelta : ∀ key side b, counterDelta (((kernel.get? key).getD 0) side) b + s.advanced key side ≤
      counterDelta (s.current key side) b + advanced key side)
    (hcurrent : ∀ key side, ((kernel.get? key).getD 0) side + s.advanced key side ≤
      s.current key side + advanced key side)
    (hadvanced : ∀ key side, s.advanced key side ≤ advanced key side) :
    Inv start { s with kernel, seen, advanced } where
  seen := List.Subset.trans h.seen hseen
  rotations := h.rotations
  total key r side := Nat.le_trans (h.total key r side) (hadvanced key side)
  base prev key b hprev hb r side := by
    have hle := h.base prev key b hprev hb r side
    have hstep := hdelta key side (b side)
    change bytes s.entries key r side + counterDelta (((kernel.get? key).getD 0) side) (b side) ≤
      advanced key side
    omega
  raw snap key v hpoll hv r side := by
    have hle := h.raw snap key v hpoll hv r side
    have hstep := hdelta key side (v side)
    change bytes s.entries key r side + counterDelta (((kernel.get? key).getD 0) side) (v side) ≤
      advanced key side
    omega
  both snap prev key v b hpoll hprev hv hb r side := by
    have hle := h.both snap prev key v b hpoll hprev hv hb r side
    have hstep := hdelta key side (v side)
    change bytes s.entries key r side + counterDelta (v side) (b side) +
      counterDelta (((kernel.get? key).getD 0) side) (v side) ≤ advanced key side
    omega
  born key hkey side := by
    have hle := h.born key hkey side
    have hstep := hcurrent key side
    change ((kernel.get? key).getD 0) side ≤ advanced key side
    omega
  bornRaw snap key v hkey hpoll hv side := by
    have hle := h.bornRaw snap key v hkey hpoll hv side
    have hstep := hdelta key side (v side)
    change v side + counterDelta (((kernel.get? key).getD 0) side) (v side) ≤ advanced key side
    omega

/-- A counter that restarts, of a peer that is new or gone. -/
theorem Inv.restart (h : Inv start s) {kernel : Table String Counter} {seen : List String}
    (hseen : s.seen ⊆ seen)
    (hkernel : ∀ key, (kernel.get? key).getD 0 = 0 ∨ (kernel.get? key).getD 0 = s.current key) :
    Inv start { s with kernel, seen } := by
  refine h.move hseen (fun key side b => ?_) (fun key side => ?_) fun _ _ => Nat.le_refl _
  · rcases hkernel key with hzero | hsame
    · rw [hzero]
      have hnone : counterDelta ((0 : Counter) side) b = 0 := counterDelta_zero
      omega
    · rw [hsame]
  · rcases hkernel key with hzero | hsame
    · rw [hzero]
      have hnone : (0 : Counter) side = 0 := rfl
      omega
    · rw [hsame]

theorem Inv.count (h : Inv start s) {c : Counter} (hc : s.kernel.get? key = some c) :
    Inv start { s with
      kernel := s.kernel.set key (bump c side n)
      advanced := fun k => if k = key then bump (s.advanced k) side n else s.advanced k } := by
  have hcounter : ∀ k d, (((s.kernel.set key (bump c side n)).get? k).getD 0) d =
      if k = key ∧ d = side then s.current k d + n else s.current k d := by
    intro k d
    rw [Table.get?_set, State.current]
    by_cases hk : k = key
    · subst hk
      rw [if_pos rfl, hc, Option.getD_some, Option.getD_some, bump]
      simp
    · simp [hk]
  have hbytes : ∀ k d, (if k = key then bump (s.advanced k) side n else s.advanced k) d =
      if k = key ∧ d = side then s.advanced k d + n else s.advanced k d := by
    intro k d
    by_cases hk : k = key <;> simp [hk, bump]
  refine h.move (List.Subset.refl _) (fun k d b => ?_) (fun k d => ?_) fun k d => ?_
  · rw [hcounter, hbytes]
    have hadd : counterDelta (s.current k d + n) b ≤ counterDelta (s.current k d) b + n :=
      counterDelta_add
    split <;> omega
  · rw [hcounter, hbytes]
    split <;> omega
  · rw [hbytes]
    split <;> omega

/-- A poll goes on: no dump is in flight any more, and no upsert is new. -/
theorem Inv.goOn (h : Inv start s) (poll : Poll) {polls : ℕ} {written : List Entry}
    (hentries : (written ++ poll.todo).Sublist s.entries)
    (hnone : ∀ snap, poll ≠ .dumped (some snap)) :
    Inv start { s with poll, polls, written } where
  seen := h.seen
  rotations := h.rotations
  total key r side := Nat.le_trans (bytes_sublist hentries) (h.total key r side)
  base prev key b hprev hb r side :=
    Nat.le_trans (Nat.add_le_add_right (bytes_sublist hentries) _)
      (h.base prev key b hprev hb r side)
  raw snap _ _ hpoll := absurd hpoll (hnone snap)
  both snap _ _ _ _ hpoll := absurd hpoll (hnone snap)
  born := h.born
  bornRaw snap _ _ _ hpoll := absurd hpoll (hnone snap)

theorem Inv.dump (h : Inv start s) (hpoll : s.poll = .dumping) :
    Inv start { s with poll := .dumped (some s.kernel) } := by
  have hentries : ({ s with poll := .dumped (some s.kernel) } : State).entries = s.entries := by
    rw [entries_of_todo rfl, entries_of_todo (by rw [hpoll]; rfl)]
  have hcurrent : ∀ key v side, s.kernel.get? key = some v →
      counterDelta (s.current key side) (v side) = 0 := by
    intro key v side hv
    rw [State.current, hv]
    exact counterDelta_self
  constructor
  · exact h.seen
  · exact h.rotations
  · intro key r side
    rw [hentries]
    exact h.total key r side
  · intro prev key b hprev hb r side
    rw [hentries]
    exact h.base prev key b hprev hb r side
  · intro snap key v hsnap hv r side
    obtain rfl : s.kernel = snap := Option.some.inj (Poll.dumped.inj hsnap)
    rw [hentries]
    change bytes s.entries key r side + counterDelta (s.current key side) (v side) ≤
      s.advanced key side
    rw [hcurrent key v side hv]
    exact h.total key r side
  · intro snap prev key v b hsnap hprev hv hb r side
    obtain rfl : s.kernel = snap := Option.some.inj (Poll.dumped.inj hsnap)
    rw [hentries]
    change bytes s.entries key r side + counterDelta (v side) (b side) +
      counterDelta (s.current key side) (v side) ≤ s.advanced key side
    have hbase := h.base prev key b hprev hb r side
    rw [State.current, hv, Option.getD_some] at hbase
    rw [hcurrent key v side hv]
    exact hbase
  · exact h.born
  · intro snap key v hkey hsnap hv side
    obtain rfl : s.kernel = snap := Option.some.inj (Poll.dumped.inj hsnap)
    change v side + counterDelta (s.current key side) (v side) ≤ s.advanced key side
    have hborn := h.born key hkey side
    rw [hcurrent key v side hv]
    rw [State.current, hv] at hborn
    exact hborn

/-- The snapshot becomes the baseline, and what it is ahead of the old one goes to the upserts. -/
theorem Inv.settle (h : Inv start s) (hpoll : s.poll = .dumped (some snap)) {todo : List Entry}
    {poll : Poll}
    (htodo : poll.todo = todo) (hnone : ∀ snap, poll ≠ .dumped (some snap))
    (hbytes : ∀ key r side, bytes todo key r side = match s.bwPrev with
      | some prevSnap => due prevSnap snap key side
      | none => 0) :
    Inv start { s with bwPrev := some snap, poll } := by
  have hbefore : s.entries = s.written := entries_of_todo (by rw [hpoll]; rfl)
  have hentries : ∀ key r side, bytes ({ s with bwPrev := some snap, poll } : State).entries key r
    side =
      bytes s.entries key r side + bytes todo key r side := by
    intro key r side
    rw [hbefore, ← bytes_append, ← htodo]
    rfl
  constructor
  · exact h.seen
  · exact h.rotations
  · intro key r side
    rw [hentries, hbytes]
    change _ ≤ s.advanced key side
    have htotal := h.total key r side
    cases hprev : s.bwPrev with
    | none => exact htotal
    | some prev =>
      dsimp only
      unfold due
      split
      · next v b hv hb =>
        have hle := h.both snap prev key v b hpoll hprev hv hb r side
        omega
      · exact htotal
  · intro prev key v hsnap hv r side
    obtain rfl : snap = prev := Option.some.inj hsnap
    rw [hentries, hbytes]
    change _ + counterDelta (s.current key side) (v side) ≤ s.advanced key side
    have hraw := h.raw snap key v hpoll hv r side
    cases hprev : s.bwPrev with
    | none => exact hraw
    | some prev =>
      dsimp only
      rw [due, hv]
      cases hb : prev.get? key with
      | none => exact hraw
      | some b => exact h.both snap prev key v b hpoll hprev hv hb r side
  · intro snap' _ _ hsnap
    exact absurd hsnap (hnone snap')
  · intro snap' _ _ _ _ hsnap
    exact absurd hsnap (hnone snap')
  · exact h.born
  · intro snap' _ _ _ hsnap
    exact absurd hsnap (hnone snap')

theorem Inv.rotate {old new : String} (h : Inv start s) (hnew : new ∉ s.seen) :
    Inv start { s with seen := new :: s.seen, rotations := (old, new) :: s.rotations } where
  seen := List.subset_cons_of_subset _ h.seen
  rotations p hp := by
    rcases List.mem_cons.mp hp with rfl | hp
    · exact fun hstart => hnew (h.seen hstart)
    · exact h.rotations p hp
  total := h.total
  base := h.base
  raw := h.raw
  both := h.both
  born := h.born
  bornRaw := h.bornRaw

theorem get?_migrateKey {old new : String} {prev : Table String Counter} {b : Counter}
    (h : (migrateKey old new prev).get? key = some b) :
    prev.get? key = some b ∨ key = new ∧ ∃ c, prev.get? old = some c := by
  unfold migrateKey at h
  split at h
  · next c hc =>
    rw [Table.get?_erase] at h
    split at h
    · cases h
    rw [Table.get?_set] at h
    split at h
    · next hkey => exact .inr ⟨hkey, c, hc⟩
    · exact .inl h
  · exact .inl h

/-- A rotation's bookkeeping finds the old key in the baseline only when no byte of the new key is
counted. -/
def Untouched (s : State) : Act → Prop
  | .migrate old new => ∀ prev ∈ s.bwPrev, old ∈ prev.keys → ∀ e ∈ s.entries, e.key = new → e.Empty
  | _ => True

theorem Inv.migrate {old new : String} (h : Inv start s) (hok : Untouched s (.migrate old new))
    (hnew : new ∉ start) :
    Inv start
      { s with
        bwPrev := s.bwPrev.map (migrateKey old new),
        rotations := s.rotations.erase (old, new) } := by
  -- a baseline that is not the key's own is that of a key without any bytes
  have hbase : ∀ prev key b, s.bwPrev.map (migrateKey old new) = some prev →
    prev.get? key = some b →
      (∃ own, s.bwPrev = some own ∧ own.get? key = some b) ∨ key = new ∧ ∀ r side,
        bytes s.entries key r side = 0 := by
    intro prev key b hprev hb
    obtain ⟨own, hown, rfl⟩ := Option.map_eq_some_iff.mp hprev
    rcases get?_migrateKey hb with hb | ⟨rfl, c, hc⟩
    · exact .inl ⟨own, hown, hb⟩
    · exact .inr ⟨rfl, fun r side => bytes_of_empty (hok own hown (Table.mem_keys.mpr ⟨c, hc⟩))⟩
  constructor
  · exact h.seen
  · exact fun p hp => h.rotations p (List.mem_of_mem_erase hp)
  · exact h.total
  · intro prev key b hprev hb r side
    change bytes s.entries key r side + counterDelta (s.current key side) (b side) ≤
      s.advanced key side
    rcases hbase prev key b hprev hb with ⟨own, hown, hb⟩ | ⟨rfl, hzero⟩
    · exact h.base own key b hown hb r side
    · have hle : counterDelta (s.current key side) (b side) ≤ s.current key side := counterDelta_le
      have hborn := h.born key hnew side
      rw [hzero]
      omega
  · exact h.raw
  · intro snap prev key v b hpoll hprev hv hb r side
    change bytes s.entries key r side + counterDelta (v side) (b side) +
      counterDelta (s.current key side) (v side) ≤ s.advanced key side
    rcases hbase prev key b hprev hb with ⟨own, hown, hb⟩ | ⟨rfl, hzero⟩
    · exact h.both snap own key v b hpoll hown hv hb r side
    · have hle : counterDelta (v side) (b side) ≤ v side := counterDelta_le
      have hborn := h.bornRaw snap key v hnew hpoll hv side
      rw [hzero]
      omega
  · exact h.born
  · exact h.bornRaw

theorem Inv.step (h : Inv start s) (hs : Step s a t) (hok : Untouched s a) : Inv start t := by
  have hidle : s.poll.todo = [] → (s.written ++ []).Sublist s.entries := by
    intro htodo
    rw [entries_of_todo htodo, List.append_nil]
  cases hs with
  | count hc => exact h.count hc
  | restart hseen hkernel => exact h.restart hseen hkernel
  | busy => exact h
  | begin hpoll => exact h.goOn .dumping (hidle (by rw [hpoll]; rfl)) (by simp)
  | dump hpoll => exact h.dump hpoll
  | dumpFails hpoll => exact h.goOn (.dumped none) (hidle (by rw [hpoll]; rfl)) (by simp)
  | done htodo => exact h.goOn .idle (hidle htodo) (by simp)
  | settle hpoll =>
    cases hprev : s.bwPrev with
    | none => exact h.settle hpoll rfl (by simp) fun key r side => by rw [hprev]; rfl
    | some prev =>
      exact h.settle hpoll rfl (by simp) fun key r side => by rw [hprev]; exact bytes_deltas
  | @write e todo hpoll =>
    refine h.goOn (.persisting todo) ?_ (by simp)
    rw [State.entries, hpoll, Poll.todo, Poll.todo, List.append_assoc, List.singleton_append]
  | @writeFails e todo hpoll =>
    refine h.goOn (.persisting (todo.dropWhile (·.key = e.key))) ?_ (by simp)
    rw [State.entries, hpoll]
    exact List.Sublist.append_left ((List.dropWhile_sublist _).trans (List.sublist_cons_self _ _)) _
  | rotate hnew => exact h.rotate hnew
  | migrate hmem => exact h.migrate hok (h.rotations _ hmem)

/-! A poll writes a peer at most once per resolution. -/

theorem mem_peerDeltas {e : Entry} {p : String × Counter} (h : e ∈ peerDeltas n prevSnap p) :
    e.poll = n ∧ e.key = p.1 := by
  unfold peerDeltas at h
  split at h
  · obtain ⟨r, -, rfl⟩ := List.mem_map.mp h
    exact ⟨rfl, rfl⟩
  · exact absurd h List.not_mem_nil

theorem nodup_peerDeltas {p : String × Counter} :
    ((peerDeltas n prevSnap p).map Entry.id).Nodup := by
  unfold peerDeltas
  split
  · simp [persistBandwidthDelta, buckets, Entry.id]
  · exact List.nodup_nil

theorem poll_of_mem_deltas {e : Entry} (h : e ∈ deltas n prevSnap snap) : e.poll = n := by
  obtain ⟨p, -, he⟩ := List.mem_flatMap.mp h
  exact (mem_peerDeltas he).1

theorem nodup_deltas : ((deltas n prevSnap snap).map Entry.id).Nodup := by
  rw [deltas, List.map_flatMap, List.nodup_flatMap]
  refine ⟨fun p _ => nodup_peerDeltas, (List.pairwise_map.mp snap.nodup).imp fun {p q} hpq => ?_⟩
  intro i hi hj
  obtain ⟨e, he, rfl⟩ := List.mem_map.mp hi
  obtain ⟨e', he', hsame⟩ := List.mem_map.mp hj
  have hkey : e'.key = e.key := congrArg (·.2.1) hsame
  exact hpq ((mem_peerDeltas he).2.symm.trans (hkey.symm.trans (mem_peerDeltas he').2))

/-- Polls are numbered, and the upserts of the one that is running are not there before its dump is.
-/
structure Tidy (s : State) : Prop where
  ids : (s.entries.map Entry.id).Nodup
  polls : ∀ e ∈ s.entries, e.poll ≤ s.polls
  fresh : s.poll = .dumping ∨ (∃ raw, s.poll = .dumped raw) → ∀ e ∈ s.entries, e.poll < s.polls

theorem Tidy.of_sublist (h : Tidy s) (hentries : t.entries.Sublist s.entries)
    (hpolls : s.polls ≤ t.polls)
    (hfresh : t.poll = .dumping ∨ (∃ raw, t.poll = .dumped raw) → ∀ e ∈ s.entries,
      e.poll < t.polls) : Tidy t where
  ids := h.ids.sublist (hentries.map _)
  polls e he := Nat.le_trans (h.polls e (hentries.subset he)) hpolls
  fresh ht e he := hfresh ht e (hentries.subset he)

theorem Tidy.settle (h : Tidy s) (hpoll : s.poll = .dumped (some snap)) : Tidy { s with
    bwPrev := some snap
    poll := match s.bwPrev with
      | some prevSnap => .persisting (deltas s.polls prevSnap snap)
      | none => .idle } := by
  have hbefore : s.entries = s.written := entries_of_todo (by rw [hpoll]; rfl)
  have hold := h.fresh (.inr ⟨_, hpoll⟩)
  cases s.bwPrev with
  | none =>
    refine h.of_sublist ?_ (Nat.le_refl _) (by simp)
    rw [hbefore, entries_of_todo rfl]
  | some prevSnap =>
    constructor
    · rw [State.entries, List.map_append]
      refine List.Nodup.append (hbefore ▸ h.ids) nodup_deltas ?_
      intro i hi hj
      obtain ⟨e, he, rfl⟩ := List.mem_map.mp hi
      obtain ⟨e', he', hsame⟩ := List.mem_map.mp hj
      have hlt : e.poll < s.polls := hold e (hbefore ▸ he)
      have hnew : e'.poll = s.polls := poll_of_mem_deltas he'
      have heq : e'.poll = e.poll := congrArg Prod.fst hsame
      omega
    · intro e he
      rcases List.mem_append.mp he with he | he
      · exact h.polls e (hbefore ▸ he)
      · exact Nat.le_of_eq (poll_of_mem_deltas he)
    · simp

theorem Tidy.step (h : Tidy s) (hs : Step s a t) : Tidy t := by
  cases hs with
  | count hc => exact ⟨h.ids, h.polls, h.fresh⟩
  | restart hseen hkernel => exact ⟨h.ids, h.polls, h.fresh⟩
  | busy => exact h
  | begin hpoll =>
    refine h.of_sublist ?_ (Nat.le_succ _) fun _ e he => Nat.lt_succ_of_le (h.polls e he)
    rw [entries_of_todo rfl, entries_of_todo (by rw [hpoll]; rfl)]
  | dump hpoll =>
    refine h.of_sublist ?_ (Nat.le_refl _) fun _ => h.fresh (.inl hpoll)
    rw [entries_of_todo rfl, entries_of_todo (by rw [hpoll]; rfl)]
  | dumpFails hpoll =>
    refine h.of_sublist ?_ (Nat.le_refl _) fun _ => h.fresh (.inl hpoll)
    rw [entries_of_todo rfl, entries_of_todo (by rw [hpoll]; rfl)]
  | done htodo =>
    refine h.of_sublist ?_ (Nat.le_refl _) (by simp)
    rw [entries_of_todo rfl, entries_of_todo htodo]
  | settle hpoll => exact h.settle hpoll
  | @write e todo hpoll =>
    refine h.of_sublist ?_ (Nat.le_refl _) (by simp)
    rw [State.entries, State.entries, hpoll, Poll.todo, Poll.todo, List.append_assoc,
      List.singleton_append]
  | @writeFails e todo hpoll =>
    refine h.of_sublist ?_ (Nat.le_refl _) (by simp)
    rw [State.entries, State.entries, hpoll]
    exact List.Sublist.append_left ((List.dropWhile_sublist _).trans (List.sublist_cons_self _ _)) _
  | rotate hnew => exact ⟨h.ids, h.polls, h.fresh⟩
  | migrate hmem => exact ⟨h.ids, h.polls, h.fresh⟩

/-! The resolutions count the same. -/

def Balanced (s : State) : Prop :=
  ∀ key r r' side, bytes s.entries key r side = bytes s.entries key r' side

theorem Balanced.of_entries (h : Balanced s) (hentries : t.entries = s.entries) : Balanced t := by
  intro key r r' side
  rw [hentries]
  exact h key r r' side

theorem Balanced.step (h : Balanced s) (hs : Step s a t) (hok : a ≠ .writeFails) : Balanced t := by
  cases hs with
  | count hc => exact h
  | restart hseen hkernel => exact h
  | busy => exact h
  | begin hpoll =>
    exact h.of_entries (by rw [entries_of_todo rfl, entries_of_todo (by rw [hpoll]; rfl)])
  | dump hpoll =>
    exact h.of_entries (by rw [entries_of_todo rfl, entries_of_todo (by rw [hpoll]; rfl)])
  | dumpFails hpoll =>
    exact h.of_entries (by rw [entries_of_todo rfl, entries_of_todo (by rw [hpoll]; rfl)])
  | done htodo => exact h.of_entries (by rw [entries_of_todo rfl, entries_of_todo htodo])
  | @settle snap hpoll =>
    have hbefore : s.entries = s.written := entries_of_todo (by rw [hpoll]; rfl)
    cases s.bwPrev with
    | none => exact h.of_entries (by rw [hbefore, entries_of_todo rfl])
    | some prevSnap =>
      intro key r r' side
      change bytes (s.written ++ deltas s.polls prevSnap snap) key r side =
        bytes (s.written ++ deltas s.polls prevSnap snap) key r' side
      rw [bytes_append, bytes_append, bytes_deltas, bytes_deltas, ← hbefore, h key r r' side]
  | write hpoll =>
    refine h.of_entries ?_
    rw [State.entries, State.entries, hpoll, Poll.todo, Poll.todo, List.append_assoc,
      List.singleton_append]
  | writeFails hpoll => exact absurd rfl hok
  | rotate hnew => exact h
  | migrate hmem => exact h

/-! Whole runs. -/

/-- No poll has run yet. -/
structure Start (s : State) : Prop where
  seen : s.kernel.keys ⊆ s.seen
  bwPrev : s.bwPrev = none
  poll : s.poll = .idle
  written : s.written = []
  rotations : s.rotations = []
  advanced : s.advanced = fun _ => 0

theorem Start.entries (h : Start s) : s.entries = [] := by
  rw [entries_of_todo (by rw [h.poll]; rfl), h.written]

theorem Start.inv (h : Start s) : Inv s.seen s := by
  have hbytes : ∀ key r side, bytes s.entries key r side = 0 := by
    intro key r side
    rw [h.entries]
    rfl
  constructor
  · exact List.Subset.refl _
  · intro p hp
    rw [h.rotations] at hp
    exact absurd hp List.not_mem_nil
  · intro key r side
    rw [hbytes]
    exact Nat.zero_le _
  · intro prev key b hprev
    rw [h.bwPrev] at hprev
    cases hprev
  · intro snap key v hpoll
    rw [h.poll] at hpoll
    cases hpoll
  · intro snap prev key v b hpoll
    rw [h.poll] at hpoll
    cases hpoll
  · intro key hkey side
    have hnone : s.kernel.get? key = none := by
      rw [Table.get?_eq_none]
      exact fun hmem => hkey (h.seen hmem)
    rw [State.current, hnone]
    exact Nat.zero_le _
  · intro snap key v _ hpoll
    rw [h.poll] at hpoll
    cases hpoll

theorem Start.tidy (h : Start s) : Tidy s := by
  constructor
  · rw [h.entries]
    exact List.nodup_nil
  · rw [h.entries]
    exact List.forall_mem_nil _
  · intro _
    rw [h.entries]
    exact List.forall_mem_nil _

theorem Start.balanced (h : Start s) : Balanced s := by
  intro key r r' side
  rw [h.entries]
  rfl

theorem balanced_run (h : Run (fun s a t => step s a = some t) s acts t) (hs : Balanced s)
    (hok : Act.writeFails ∉ acts) : Balanced t := by
  induction h with
  | nil => exact hs
  | cons hst _ ih =>
    rw [List.mem_cons, not_or] at hok
    exact ih (hs.step (step_cases hst) (Ne.symm hok.1)) hok.2

theorem bytes_written_le : bytes s.written key r side ≤ bytes s.entries key r side :=
  bytes_sublist (List.sublist_append_left _ _)

/-- What is written of a key never exceeds what its counters have advanced, the resolutions agree
while no write has failed, and a poll writes a peer once per resolution, as long as no rotation
moves a baseline over counted bytes. -/
theorem counted_at_most_once (hstart : Start s)
    (hrun : Run (Guarded (fun s a t => step s a = some t) Untouched) s acts t) :
    (∀ key r side, bytes t.written key r side ≤ t.advanced key side) ∧
    (Act.writeFails ∉ acts → t.poll.todo = [] → ∀ key r r' side,
      bytes t.written key r side = bytes t.written key r' side) ∧
    (t.written.map Entry.id).Nodup := by
  refine ⟨fun key r side => ?_, fun hok htodo key r r' side => ?_, ?_⟩
  · have hinv : Inv s.seen t := by
      refine hrun.guarded_invariant ?_ hstart.inv
      intro s a t hs hok h
      exact h.step (step_cases hs) hok
    exact Nat.le_trans bytes_written_le (hinv.total key r side)
  · rw [← entries_of_todo htodo]
    exact balanced_run hrun.of_guarded hstart.balanced hok key r r' side
  · have htidy : Tidy t :=
      hrun.of_guarded.invariant (fun _ _ _ hs h => h.step (step_cases hs)) hstart.tidy
    exact htidy.ids.sublist ((List.sublist_append_left _ _).map _)

instance Untouched.decidable : ∀ (s : State) (a : Act), Decidable (Untouched s a)
  | s, .migrate old new =>
    inferInstanceAs
      (Decidable (∀ prev ∈ s.bwPrev, old ∈ prev.keys → ∀ e ∈ s.entries, e.key = new → e.Empty))
  | _, .count .. | _, .reset _ | _, .come _ | _, .go _ | _, .tick | _, .dump | _, .dumpFails | _,
      .settle | _, .write
  | _, .writeFails | _, .finish | _, .rotate .. => isTrue trivial

/-- One peer, whose counters are ahead when the polls begin. -/
def sampleStart : State where
  kernel := Table.empty.set "a" fun _ => 100
  seen := ["a"]
  bwPrev := none
  poll := .idle
  polls := 0
  written := []
  rotations := []
  advanced := fun _ => 0

theorem sampleStart_start : Start sampleStart := ⟨by decide, rfl, rfl, rfl, rfl, rfl⟩

def polling (writes : ℕ) : List Act :=
  [.tick, .dump, .settle] ++ List.replicate writes .write ++ [.finish]

/-- The peer's key is rotated between two polls. -/
def rotated : List Act := [.tick, .dump, .settle, .count "a" .rx 5] ++ polling 3 ++
  [.rotate "a" "b", .go "a", .come "b", .migrate "a" "b", .count "b" .rx 8] ++ polling 3

theorem counted_at_most_once_rotated :
    ∃ t, Run (fun s a t => step s a = some t) sampleStart rotated t ∧
    bytes t.written "b" .day .rx = 8 ∧ bytes t.written "b" .day .rx ≤ t.advanced "b" .rx ∧
    bytes t.written "b" .day .rx = bytes t.written "b" .minute .rx ∧
    (t.written.map Entry.id).Nodup := by
  have hrun : ((rotated.foldlM (Run.checked step Untouched) sampleStart).map fun t =>
      (bytes t.written "b" .day .rx, t.poll.todo.isEmpty)) = some (8, true) := by decide +kernel
  obtain ⟨t, ht, h⟩ := Option.map_eq_some_iff.mp hrun
  injection h with hbytes htodo
  have hcounted := counted_at_most_once sampleStart_start (Run.of_checked ht)
  have heven := hcounted.2.1 (by decide) (List.isEmpty_iff.mp htodo) "b" .day .minute .rx
  exact ⟨t, (Run.of_checked ht).of_guarded, hbytes, hcounted.1 "b" .day .rx, heven, hcounted.2.2⟩

/-- The old peer stays on the interface, and the bookkeeping comes after two polls of the new one.
-/
def lateBookkeeping : List Act :=
  [.rotate "a" "b", .come "b", .tick, .dump, .settle, .count "b" .rx 7] ++ polling 6 ++
  [.migrate "a" "b", .count "b" .rx 8] ++ polling 3

theorem counted_twice :
    Start sampleStart ∧ ∃ t, Run (fun s a t => step s a = some t) sampleStart lateBookkeeping t ∧
    bytes t.written "b" .day .rx = 22 ∧ t.advanced "b" .rx = 15 ∧ t.advanced "a" .rx = 0 := by
  have hrun : ((lateBookkeeping.foldlM step sampleStart).map fun t =>
      (bytes t.written "b" .day .rx, t.advanced "b" .rx, t.advanced "a" .rx)) =
        some (22, 15, 0) := by decide +kernel
  obtain ⟨t, ht, h⟩ := Option.map_eq_some_iff.mp hrun
  injection h with hbytes h
  injection h with hnew hold
  exact ⟨sampleStart_start, t, Run.of_foldlM ht, hbytes, hnew, hold⟩

end FloppyGuard.WireGuard.Traffic
