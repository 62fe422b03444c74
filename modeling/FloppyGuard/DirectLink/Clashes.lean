import FloppyGuard.DirectLink.Ends
import FloppyGuard.Ingress.Sessions

/-! `create` and `update` of direct links side by side. Each checks its link against the rows it has
read and writes later; every read and every write of the table is a step of its own. -/
namespace FloppyGuard.DirectLink.Clashes

open Ingress (LinkWrite)

/-- A tunnel address, the pair of agents or the port of side A is that of the other link too. -/
def Clash (l o : Link) : Prop :=
  (∃ ip, ip ∈ l.tunnelSubnet.block ∧ ip ∈ o.tunnelSubnet.block) ∨
    (o.agentAId = l.agentAId ∧ o.agentBId = l.agentBId ∨ o.agentAId = l.agentBId ∧
      o.agentBId = l.agentAId) ∨
      o.agentAId = l.agentAId ∧ o.listenPort = l.listenPort

inductive Call
  /-- `others` are the rows the link was checked against -/
  | saving (write : LinkWrite) (others : Option (List Link))
  /-- `create` has got an id above the last one there may be -/
  | dropping (id : ℕ)

structure State where
  rows : Rows Link Link.id
  calls : ℕ → Option Call

inductive Act
  | create (c : ℕ) (draft : Link)
  | update (c id : ℕ) (patch : LinkPatch)
  /-- `validateComplete` reads the other rows; the context is what it reads besides -/
  | check (c : ℕ) (ctx : MeshContext)
  /-- the size check fails -/
  | refuse (c : ℕ)
  | write (c : ℕ)
  | drop (c : ℕ)
  | delete (id : ℕ)

namespace State

variable (s : State)

def setCall (c : ℕ) (call : Option Call) : State :=
  { s with calls := Function.update s.calls c call }

def row (id : ℕ) : Option Link := s.rows.rows.find? (Link.id · = id)

def inserted (draft : Link) : Rows Link Link.id := (LinkWrite.create draft).apply s.rows

def patched (existing : Link) (patch : LinkPatch) : Rows Link Link.id :=
  (LinkWrite.update existing patch).apply s.rows

end State

def step (s : State) : Act → Option State
  | .create c draft =>
    if s.calls c = none then some (s.setCall c (some (.saving (.create draft) none))) else none
  | .update c id patch =>
    if s.calls c = none then
      (s.row id).map fun existing =>
        let merged := patch.merge existing
        if merged.agentAId = merged.agentBId then s
        else s.setCall c (some (.saving (.update existing patch) none))
    else none
  | .check c ctx =>
    match s.calls c with
    | some (.saving write none) =>
      match assertDirectLinkFits write.link { ctx with others := s.rows.rows } with
      | .ok _ => some (s.setCall c (some (.saving write (some s.rows.rows))))
      | .error _ => some (s.setCall c none)
    | _ => none
  | .refuse c =>
    match s.calls c with
    | some (.saving _ (some _)) => some (s.setCall c none)
    | _ => none
  | .write c =>
    match s.calls c with
    | some (.saving (.create draft) (some _)) =>
      some { s with
        rows := s.inserted draft
        calls :=
          Function.update s.calls c (if maxDirectLinkId < s.rows.nextId then
            some (.dropping s.rows.nextId) else none) }
    | some (.saving (.update existing patch) (some _)) =>
      some { s with rows := s.patched existing patch, calls := Function.update s.calls c none }
    | _ => none
  | .drop c =>
    match s.calls c with
    | some (.dropping id) =>
      some { s with rows := s.rows.delete id, calls := Function.update s.calls c none }
    | _ => none
  | .delete id => some { s with rows := s.rows.delete id }

/-! What a step can do. -/

inductive Step (s : State) : Act → State → Prop
  /-- the table stays, and the call of the step is not one that has been checked, or it is gone -/
  | call {a c call} (ha : ∀ n, a ≠ .write n)
    (hcall : ∀ write others, call ≠ some (.saving write (some others))) :
      Step s a (s.setCall c call)
  | rejected {a} (ha : ∀ n, a ≠ .write n) : Step s a s
  | checked {c ctx write} (hc : s.calls c = some (.saving write none))
      (hok : assertNoLinkClash write.link s.rows.rows = .ok ()) :
      Step s (.check c ctx) (s.setCall c (some (.saving write (some s.rows.rows))))
  | insert {c draft others call} (hc : s.calls c = some (.saving (.create draft) (some others)))
      (hcall : ∀ write others, call ≠ some (.saving write (some others))) :
      Step s (.write c) { s with rows := s.inserted draft, calls := Function.update s.calls c call }
  | patch {c patch existing others}
      (hc : s.calls c = some (.saving (.update existing patch) (some others))) :
      Step s (.write c)
        { s with rows := s.patched existing patch, calls := Function.update s.calls c none }
  | drop {c id} (hc : s.calls c = some (.dropping id)) :
      Step s (.drop c) { s with rows := s.rows.delete id, calls := Function.update s.calls c none }
  | delete {id} : Step s (.delete id) { s with rows := s.rows.delete id }

variable {s t u : State} {a : Act} {acts : List Act} {l o : Link}

theorem step_cases (h : step s a = some t) : Step s a t := by
  unfold step at h
  split at h
  · split at h
    · exact Option.some.inj h ▸ .call nofun (by simp)
    · cases h
  · split at h
    · obtain ⟨existing, -, rfl⟩ := Option.map_eq_some_iff.mp h
      dsimp only
      split
      · exact .rejected nofun
      · exact .call nofun (by simp)
    · cases h
  · split at h
    · next write hc =>
      split at h
      · next hok => exact Option.some.inj h ▸ .checked hc (Checked.unit_bind_eq_ok.mp hok).1
      · exact Option.some.inj h ▸ .call nofun (by simp)
    · cases h
  · split at h
    · exact Option.some.inj h ▸ .call nofun (by simp)
    · cases h
  · split at h
    · next hc =>
      refine Option.some.inj h ▸ .insert hc ?_
      split <;> simp
    · next hc => exact Option.some.inj h ▸ .patch hc
    · cases h
  · split at h
    · next hc => exact Option.some.inj h ▸ .drop hc
    · cases h
  · exact Option.some.inj h ▸ .delete

/-! Clashes. -/

theorem clash_iff : Clash l o ↔ l.tunnelSubnet.block.Overlaps o.tunnelSubnet.block ∨
    (o.agentAId = l.agentAId ∧ o.agentBId = l.agentBId ∨ o.agentAId = l.agentBId ∧
      o.agentBId = l.agentAId) ∨
      o.agentAId = l.agentAId ∧ o.listenPort = l.listenPort := by
  rw [Clash, PrefixBlock.overlaps_iff]

instance : Decidable (Clash l o) := decidable_of_iff' _ clash_iff

theorem Clash.symm (h : Clash l o) : Clash o l := by
  obtain ⟨ip, hl, ho⟩ | (⟨ha, hb⟩ | ⟨ha, hb⟩) | ⟨ha, hp⟩ := h
  · exact .inl ⟨ip, ho, hl⟩
  · exact .inr (.inl (.inl ⟨ha.symm, hb.symm⟩))
  · exact .inr (.inl (.inr ⟨hb.symm, ha.symm⟩))
  · exact .inr (.inr ⟨ha.symm, hp.symm⟩)

theorem netsMeet_iff {n t : TunnelSubnet} :
    netsMeet n.text t.text = true ↔ t.block.Overlaps n.block := by
  rw [netsMeet, Bool.or_eq_true, cidrContains_iff, cidrContains_iff, n.reads, t.reads]
  constructor
  · rintro (⟨_, _, ⟨⟩, ⟨⟩, h⟩ | ⟨_, _, ⟨⟩, ⟨⟩, h⟩)
    · exact .inr h
    · exact .inl h
  · rintro (h | h)
    · exact .inr ⟨_, _, rfl, rfl, h⟩
    · exact .inl ⟨_, _, rfl, rfl, h⟩

theorem clashWith_eq_none : clashWith l o = none ↔ ¬ Clash l o := by
  rw [clash_iff, ← netsMeet_iff, clashWith]
  split
  · next hnets => simp [hnets]
  next hnets =>
  split
  · next hpair => simp [hpair]
  next hpair =>
  split
  · next hport => simp [hport]
  · next hport => simp [hnets, hpair, hport]

/-- The check of a link against rows. -/
theorem assertNoLinkClash_eq_ok {others : List Link} :
    assertNoLinkClash l others = .ok () ↔ ∀ o ∈ others, o.id ≠ l.id → ¬ Clash l o := by
  have hscan : (others.filter fun o => o.id ≠ l.id).findSome? (clashWith l) = none ↔
      ∀ o ∈ others, o.id ≠ l.id → ¬ Clash l o := by
    rw [List.findSome?_eq_none_iff]
    constructor
    · intro h o ho hid
      exact clashWith_eq_none.mp (h o (List.mem_filter.mpr ⟨ho, by simpa using hid⟩))
    · intro h o ho
      obtain ⟨ho, hid⟩ := List.mem_filter.mp ho
      exact clashWith_eq_none.mpr (h o ho (by simpa using hid))
  rw [← hscan, assertNoLinkClash]
  cases (others.filter fun o => o.id ≠ l.id).findSome? (clashWith l) <;> simp

/-- No two rows clash. -/
def Apart (rows : Rows Link Link.id) : Prop :=
  ∀ l ∈ rows.rows, ∀ o ∈ rows.rows, l.id ≠ o.id → ¬ Clash l o

theorem Apart.subset {rows rows' : Rows Link Link.id} (h : Apart rows)
    (hsub : ∀ l ∈ rows'.rows, l ∈ rows.rows) : Apart rows' :=
  fun l hl o ho => h l (hsub l hl) o (hsub o ho)

/-- A table in which one row is new or changed. -/
theorem apart_iff {rows rows' : Rows Link Link.id} (h : Apart rows) (hl : l ∈ rows'.rows)
    (hothers : ∀ o, o.id ≠ l.id → (o ∈ rows'.rows ↔ o ∈ rows.rows)) :
    Apart rows' ↔ ∀ o ∈ rows.rows, o.id ≠ l.id → ¬ Clash l o := by
  constructor
  · intro hfree o ho hid
    exact hfree l hl o ((hothers o hid).mpr ho) hid.symm
  · intro hfree x hx y hy hne hclash
    by_cases hxl : x.id = l.id
    · obtain rfl := Rows.eq_of_key_eq hx hl hxl
      exact hfree y ((hothers y hne.symm).mp hy) hne.symm hclash
    by_cases hyl : y.id = l.id
    · obtain rfl := Rows.eq_of_key_eq hy hl hyl
      exact hfree x ((hothers x hne).mp hx) hne hclash.symm
    · exact h x ((hothers x hxl).mp hx) y ((hothers y hyl).mp hy) hne hclash

/-! What a write leaves. -/

/-- The row a call leaves in the table. -/
def left (s : State) : LinkWrite → Option Link
  | .create draft => some { draft with id := s.rows.nextId }
  | .update existing patch => (s.row existing.id).map patch.merge

/-- The call's own row is as it was read. -/
def Current (s : State) : LinkWrite → Prop
  | .create _ => True
  | .update existing _ => s.row existing.id = some existing

/-- What a call leaves clashes with a row that it has not read as it is, or its own row is another
one than it has read. -/
def Overtaken (s : State) : Act → Prop
  | .write c =>
    ∃ write others l o, s.calls c = some (.saving write (some others)) ∧ left s write = some l ∧
      o ∈ s.rows.rows ∧ o.id ≠ l.id ∧ Clash l o ∧ ¬ (o ∈ others ∧ Current s write)
  | _ => False

/-- A link has been checked against rows. -/
structure Fits (write : LinkWrite) (others : List Link) : Prop where
  ids : ∀ o ∈ others, 1 ≤ o.id
  free : ∀ o ∈ others, o.id ≠ write.link.id → ¬ Clash write.link o

def Checked (s : State) : Prop := ∀ c write others, s.calls c = some (.saving write (some others)) →
    Fits write others

theorem Checked.setCall {call : Option Call} {rows : Rows Link Link.id} {c : ℕ} (h : Checked s)
    (hcall : ∀ write others, call = some (.saving write (some others)) → Fits write others) :
    Checked ⟨rows, Function.update s.calls c call⟩ := by
  intro c' write others hc
  change Function.update s.calls c call c' = _ at hc
  rw [Function.update_apply] at hc
  split at hc
  · exact hcall write others hc
  · exact h c' write others hc

theorem Checked.step (h : Checked s) (hs : Step s a t) : Checked t := by
  cases hs with
  | call _ hcall => exact h.setCall fun write others he => absurd he (hcall write others)
  | rejected _ => exact h
  | @checked c ctx write hc hok =>
    refine h.setCall fun write' others he => ?_
    cases he
    exact ⟨fun o ho => (s.rows.ids o ho).1, assertNoLinkClash_eq_ok.mp hok⟩
  | insert hc hcall => exact h.setCall fun write others he => absurd he (hcall write others)
  | patch hc => exact h.setCall fun write others he => by cases he
  | drop hc => exact h.setCall fun write others he => by cases he
  | delete => exact h

/-- A write of a checked call: the row it leaves is apart from those the call has read as they are.
-/
theorem Fits.left {write : LinkWrite} {others : List Link} (h : Fits write others)
    (hl : left s write = some l)
    (hcurrent : Current s write) (ho : o ∈ others) (hid : o.id ≠ l.id) : ¬ Clash l o := by
  cases write with
  | create draft =>
    cases hl
    have hne : o.id ≠ 0 := Nat.one_le_iff_ne_zero.mp (h.ids o ho)
    exact h.free o ho hne
  | update existing patch =>
    rw [Clashes.left, show s.row existing.id = some existing from hcurrent] at hl
    cases hl
    exact h.free o ho hid

theorem not_overtaken_iff {c : ℕ} {write : LinkWrite} {others : List Link} (h : Fits write others)
    (hc : s.calls c = some (.saving write (some others))) (hl : left s write = some l) :
    ¬ Overtaken s (.write c) ↔ ∀ o ∈ s.rows.rows, o.id ≠ l.id → ¬ Clash l o := by
  constructor
  · intro hnot o ho hid hclash
    exact hnot ⟨write, others, l, o, hc, hl, ho, hid, hclash, fun hread =>
      h.left hl hread.2 hread.1 hid hclash⟩
  · rintro hfree ⟨write', others', l', o, hc', hl', ho, hid, hclash, -⟩
    cases hc.symm.trans hc'
    cases hl.symm.trans hl'
    exact hfree o ho hid hclash

theorem mem_patched {existing : Link} {patch : LinkPatch} (hid : o.id ≠ existing.id) :
    o ∈ (s.patched existing patch).rows ↔ o ∈ s.rows.rows := by
  constructor
  · intro h
    obtain ⟨r, hr, rfl⟩ := List.mem_map.mp h
    split at hid
    · next hsame => exact absurd (of_decide_eq_true hsame) hid
    · next hother => rwa [if_neg hother]
  · intro ho
    exact List.mem_map.mpr ⟨o, ho, if_neg (by simpa using hid)⟩

/-- From a table without clashes, a step leads to one exactly when nothing has overtaken it. -/
theorem Step.apart_iff (hs : Step s a t) (h : Checked s) (hfree : Apart s.rows) :
    Apart t.rows ↔ ¬ Overtaken s a := by
  have hkept : ∀ {rows : Rows Link Link.id}, (∀ n, a ≠ .write n) →
    (∀ l ∈ rows.rows, l ∈ s.rows.rows) →
      (Apart rows ↔ ¬ Overtaken s a) := by
    intro rows ha hsub
    refine iff_of_true (hfree.subset hsub) fun hover => ?_
    cases a with
    | write n => exact ha n rfl
    | _ => exact hover
  cases hs with
  | call ha _ => exact hkept ha fun _ hl => hl
  | rejected ha => exact hkept ha fun _ hl => hl
  | checked _ _ => exact hkept nofun fun _ hl => hl
  | drop _ => exact hkept nofun fun _ hl => (List.mem_filter.mp hl).1
  | delete => exact hkept nofun fun _ hl => (List.mem_filter.mp hl).1
  | @insert c draft others call hc _ =>
    have hmem : { draft with id := s.rows.nextId } ∈ (s.inserted draft).rows :=
      Rows.mem_insert.mpr (.inr rfl)
    have hothers : ∀ o, o.id ≠ s.rows.nextId → (o ∈ (s.inserted draft).rows ↔ o ∈ s.rows.rows) := by
      intro o hid
      rw [State.inserted, LinkWrite.apply, Rows.mem_insert, or_iff_left]
      rintro rfl
      exact hid rfl
    exact (Clashes.apart_iff hfree hmem hothers).trans (not_overtaken_iff (h c _ _ hc) hc rfl).symm
  | @patch c patch existing others hc =>
    cases hrow : s.row existing.id with
    | none =>
      -- the row is gone: the table stays as it is
      have hgone : ∀ r ∈ s.rows.rows, r.id ≠ existing.id := fun r hr => by
        simpa using List.find?_eq_none.mp hrow r hr
      refine iff_of_true (hfree.subset fun l hl => ?_) ?_
      · obtain ⟨r, hr, rfl⟩ := List.mem_map.mp hl
        rwa [if_neg (by simpa using hgone r hr)]
      · rintro ⟨write, others', l, o, hc', hl, -⟩
        cases hc.symm.trans hc'
        rw [left, hrow] at hl
        cases hl
    | some row =>
      have hl : left s (.update existing patch) = some (patch.merge row) := by
        rw [left, hrow, Option.map_some]
      have hid : row.id = existing.id := by simpa using List.find?_some hrow
      have hmem : patch.merge row ∈ (s.patched existing patch).rows :=
        List.mem_map.mpr ⟨row, List.mem_of_find?_eq_some hrow, if_pos (by simpa using hid)⟩
      have hothers : ∀ o, o.id ≠ row.id → (o ∈ (s.patched existing patch).rows ↔ o ∈ s.rows.rows) :=
        fun o ho => mem_patched (hid ▸ ho)
      exact (Clashes.apart_iff hfree hmem hothers).trans (not_overtaken_iff (h c _ _ hc) hc hl).symm

/-- Rows never clash exactly when no write is overtaken by another one. -/
theorem rows_apart_iff (hidle : ∀ c, s.calls c = none) (hfree : Apart s.rows)
    (hrun : Run (fun s a t => step s a = some t) s acts t) :
    (∀ pre u, pre <+: acts → Run (fun s a t => step s a = some t) s pre u → Apart u.rows) ↔
      Run (Guarded (fun s a t => step s a = some t) fun s a => ¬ Overtaken s a) s acts t := by
  have hchecked : Checked s := fun c write others hc => by
    rw [hidle] at hc
    cases hc
  exact Run.guarded_iff (J := Checked) (I := fun s => Apart s.rows)
    (fun h h' => Option.some.inj (h.symm.trans h'))
    (fun hs h => h.step (step_cases hs)) (fun hs h hfree => (step_cases hs).apart_iff h hfree) hrun
      hchecked hfree

/-! One create alone, and the same create twice at once. -/

def start : State := ⟨.empty, fun _ => none⟩

def draft : Link := { sampleRow 0 with enabled := false }

def noMesh : MeshContext := ⟨fun _ => none, fun _ => none, fun _ _ => false, [], [], []⟩

theorem apart_start : Apart start.rows := fun _ hl => absurd hl List.not_mem_nil

theorem rows_apart_iff_alone :
    Apart start.rows ∧ ∀ pre u, pre <+: [.create 0 draft, .check 0 noMesh, .write 0] →
    Run (fun s a t => step s a = some t) start pre u → Apart u.rows := by
  have hfirst : ¬ Overtaken (start.setCall 0 (some (.saving (.create draft) (some []))))
      (.write 0) := by
    rintro ⟨_, _, _, o, -, -, ho, -⟩
    exact List.not_mem_nil ho
  have hguarded : Run (Guarded (fun s a t => step s a = some t) fun s a => ¬ Overtaken s a) start
      [.create 0 draft, .check 0 noMesh, .write 0] _ :=
    .cons ⟨rfl, id⟩ (.cons ⟨rfl, id⟩ (.single ⟨rfl, hfirst⟩))
  exact ⟨apart_start, (rows_apart_iff (fun _ => rfl) apart_start hguarded.of_guarded).mpr hguarded⟩

def both : List Act :=
  [.create 0 draft, .create 1 draft, .check 0 noMesh, .check 1 noMesh, .write 0, .write 1]

theorem rows_clash : ¬ ∀ s acts t, (∀ c, s.calls c = none) → Apart s.rows →
    Run (fun s a t => step s a = some t) s acts t → Apart t.rows := by
  intro h
  have hclash : (both.foldlM step start).any (fun t =>
      decide (∃ l ∈ t.rows.rows, ∃ o ∈ t.rows.rows, l.id ≠ o.id ∧ Clash l o)) =
        true := by decide +kernel
  obtain ⟨t, ht, hclash⟩ := (Option.any_eq_true _ _).mp hclash
  obtain ⟨l, hl, o, ho, hne, hclash⟩ := of_decide_eq_true hclash
  exact h start both t (fun _ => rfl) apart_start (.of_foldlM ht) l hl o ho hne hclash

end FloppyGuard.DirectLink.Clashes
