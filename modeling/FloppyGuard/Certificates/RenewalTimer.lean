import FloppyGuard.Lib.Run
import Mathlib.Algebra.BigOperators.Group.Finset.Basic
import Mathlib.Algebra.Order.BigOperators.Group.Finset
import Mathlib.Logic.Function.Basic

/-! The timer that renews certificates (`processExpiringHosts`, `renew` and `renewalBackoffMs` in
`certificate.js`), over ticks, attempts and restarts. Of the state file of `cert-alerts.js` it has
the failures. `onFailure` and `checkExpiring` write the whole file as they read it before their
mail. -/
namespace FloppyGuard.Certificates.RenewalTimer

def hour : ℕ := 60 * 60 * 1000

def renewalBackoffMs (failures : ℕ) : ℕ := min (24 * hour) (hour * 2 ^ max 1 (min failures 5))

structure Failed where
  failures : ℕ
  nextAttempt : ℕ
deriving DecidableEq

/-- The failed certificates of a state file. -/
abbrev Failures := ℕ → Option Failed

/-- `rest`: the certificates of the tick whose turn is still to come. -/
inductive Phase
  | idle
  | between (rest : List ℕ)
  | renewing (id start : ℕ) (rest : List ℕ)
  /-- `onFailure` has read the file and waits for its mail -/
  | reporting (id : ℕ) (failed : Failed) (read : Failures) (rest : List ℕ)

/-- An automatic attempt that failed, or a renewal. -/
inductive Event
  | failed (id start stop : ℕ)
  | renewed (id : ℕ)

/-- `stored`: the state file. `warnings`: the files that calls of `checkExpiring` have read, which
wait for their mail. The events are newest first. -/
structure State where
  clock : ℕ
  renewFailures : Failures
  stored : Failures
  warnings : List Failures
  phase : Phase
  log : List Event

inductive Act
  /-- The certificates that expire soon are there. -/
  | tick (expiring : List ℕ)
  | begin
  /-- A certificate is renewed, by hand or by the attempt under way, which can still fail when nginx
  is reloaded. -/
  | renewed (id : ℕ) (written : Bool)
  | succeed (written : Bool)
  | fail
  /-- `onFailure` writes the state file, or it cannot be written -/
  | report (written : Bool)
  /-- `checkExpiring` reads the state file -/
  | check
  /-- A call of `checkExpiring` ends; it writes the file that it read where its mail was sent. -/
  | checked (k : ℕ) (written : Bool)
  | finish
  /-- the process ends and starts again -/
  | restart

/-- `restoreFailures` -/
def restored (stored : Failures) : Failures := fun id =>
  (stored id).map fun c => ⟨if c.failures = 0 then 1 else c.failures, c.nextAttempt⟩

/-- `failed && Date.now() < failed.nextAttempt` -/
def skips (failed : Option Failed) (now : ℕ) : Bool := failed.any fun f => now < f.nextAttempt

namespace State

variable (s : State)

/-- `renew` has a certificate; `onSuccess` writes the state file, or it cannot be written. -/
def renewed (id : ℕ) (written : Bool) : State :=
  { s with
    renewFailures := Function.update s.renewFailures id none
    stored := if written then Function.update s.stored id none else s.stored
    log := .renewed id :: s.log }

/-- The entry of an attempt that failed. -/
def failure (id now : ℕ) : Failed :=
  let failures := ((s.renewFailures id).map Failed.failures).getD 0 + 1
  ⟨failures, now + renewalBackoffMs failures⟩

end State

/-- The clock does not go back, and the rows of the database have different ids. -/
def step (s : State) (now : ℕ) (a : Act) : Option State :=
  if now < s.clock then none
  else
    let t := { s with clock := now }
    match a, s.phase with
    | .tick expiring, .idle =>
      if expiring.Nodup then
        some { t with
          phase := .between (expiring.filter fun id => !skips (s.renewFailures id) now) }
      else none
    | .begin, .between (id :: rest) => some { t with phase := .renewing id now rest }
    | .renewed id written, _ => some (t.renewed id written)
    | .succeed written, .renewing id _ rest =>
      some { t.renewed id written with phase := .between rest }
    | .fail, .renewing id start rest =>
      some { t with
        renewFailures := Function.update s.renewFailures id (some (s.failure id now))
        phase := .reporting id (s.failure id now) s.stored rest
        log := .failed id start now :: s.log }
    | .report written, .reporting id failed read rest =>
      some { t with
          stored := if written then Function.update read id (some failed) else s.stored,
          phase := .between rest }
    | .check, _ => some { t with warnings := s.warnings ++ [s.stored] }
    | .checked k written, _ =>
      s.warnings[k]?.map fun read =>
        { t with stored := if written then read else s.stored, warnings := s.warnings.eraseIdx k }
    | .finish, .between [] => some { t with phase := .idle }
    | .restart, _ =>
      some { t with renewFailures := restored s.stored, warnings := [], phase := .idle }
    | _, _ => none

def Step (s : State) (a : ℕ × Act) (t : State) : Prop := step s a.1 a.2 = some t

/-- A failure is written to the state file, while no call of `checkExpiring` has an older one to
write; and the process does not end in the middle of an attempt. -/
def timely (s : State) (a : ℕ × Act) : Bool :=
  match a.2, s.phase with
  | .report written, _ => written && s.warnings.isEmpty
  | .restart, .renewing .. => false
  | .restart, .reporting .. => false
  | _, _ => true

abbrev Timely (s : State) (a : ℕ × Act) : Prop := timely s a = true

abbrev Runs : State → List (ℕ × Act) → State → Prop := Run (Guarded Step Timely)

def initial : State := ⟨0, fun _ => none, fun _ => none, [], .idle, []⟩

/-! Streaks of failures. -/

/-- The failed attempts of a certificate since its last renewal, newest first: begin and end. -/
def streak (id : ℕ) : List Event → List (ℕ × ℕ)
  | [] => []
  | .failed c start stop :: log => if c = id then (start, stop) :: streak id log else streak id log
  | .renewed c :: log => if c = id then [] else streak id log

/-- Each attempt begins at least the back-off of the failures before it after the last one ended. -/
def Spaced : List (ℕ × ℕ) → Prop
  | (start, stop) :: (start', stop') :: rest =>
    start ≤ stop ∧ stop' + renewalBackoffMs (rest.length + 1) ≤ start ∧
      Spaced ((start', stop') :: rest)
  | [(start, stop)] => start ≤ stop
  | [] => True

variable {s t : State} {a : Act} {now id n m time : ℕ} {xs : List (ℕ × Act)} {l w : List (ℕ × ℕ)}
  {f : Failed}

theorem renewalBackoffMs_mono (h : n ≤ m) : renewalBackoffMs n ≤ renewalBackoffMs m := by
  have hexp : max 1 (min n 5) ≤ max 1 (min m 5) := by omega
  have hpow : 2 ^ max 1 (min n 5) ≤ 2 ^ max 1 (min m 5) := Nat.pow_le_pow_right (by omega) hexp
  exact min_le_min (le_refl _) (Nat.mul_le_mul_left _ hpow)

/-- After this streak the next attempt may begin at `time`. -/
def Due (l : List (ℕ × ℕ)) (time : ℕ) : Prop :=
  ∀ start stop rest, l = (start, stop) :: rest → stop + renewalBackoffMs l.length ≤ time

theorem due_nil : Due [] time := nofun

theorem Due.mono (h : Due l n) (hnm : n ≤ m) : Due l m :=
  fun start stop rest hl => (h start stop rest hl).trans hnm

/-- The entry remembers the streak. -/
def Remembers (entry : Option Failed) (l : List (ℕ × ℕ)) : Prop :=
  l ≠ [] → ∃ f, entry = some f ∧ l.length ≤ f.failures ∧ Due l f.nextAttempt

theorem remembers_nil (entry : Option Failed) : Remembers entry [] := fun h => absurd rfl h

/-- The state file, and the files that can still take its place. -/
def State.files (s : State) : List Failures := s.stored :: s.warnings

/-- No failure of the certificate is on its way to the state file. -/
def Quiet (p : Phase) (id : ℕ) : Prop := ∀ c f read rest, p = .reporting c f read rest → c ≠ id

/-- What holds of the streak of each certificate. -/
structure Holds (s : State) (id : ℕ) : Prop where
  spaced : Spaced (streak id s.log)
  past : ∀ x ∈ streak id s.log, x.2 ≤ s.clock
  memory : Remembers (s.renewFailures id) (streak id s.log)
  files : Quiet s.phase id → ∀ file ∈ s.files, Remembers (file id) (streak id s.log)

/-- What holds of the tick under way. -/
def Ready (s : State) : Phase → Prop
  | .idle => True
  | .between rest => rest.Nodup ∧ ∀ id ∈ rest, Due (streak id s.log) s.clock
  | .renewing id start rest =>
    (id :: rest).Nodup ∧ (∀ c ∈ rest, Due (streak c s.log) s.clock) ∧ Due (streak id s.log) start ∧
      start ≤ s.clock
  | .reporting id f read rest =>
    rest.Nodup ∧ (∀ c ∈ rest, Due (streak c s.log) s.clock) ∧ Remembers (some f) (streak id s.log) ∧
    ∀ c, c ≠ id → Remembers (read c) (streak c s.log)

structure Inv (s : State) : Prop where
  holds : ∀ id, Holds s id
  ready : Ready s s.phase

/-! What does not touch a certificate. -/

theorem Holds.clock (h : Holds s id) (hn : s.clock ≤ now) : Holds { s with clock := now } id :=
  ⟨h.spaced, fun x hx => (h.past x hx).trans hn, h.memory, h.files⟩

theorem holds_empty (hs : streak id s.log = []) : Holds s id where
  spaced := by
    rw [hs]
    trivial
  past := by simp [hs]
  memory := hs ▸ remembers_nil _
  files := fun _ _ _ => hs ▸ remembers_nil _

theorem streak_renewed_self (id : ℕ) (log : List Event) : streak id (.renewed id :: log) = [] :=
  if_pos rfl

theorem streak_renewed_ne {c : ℕ} (h : c ≠ id) (log : List Event) :
    streak id (.renewed c :: log) = streak id log := if_neg h

theorem streak_failed_ne {c start stop : ℕ} (h : c ≠ id) (log : List Event) :
    streak id (.failed c start stop :: log) = streak id log := if_neg h

theorem streak_failed_self (id start stop : ℕ) (log : List Event) :
    streak id (.failed id start stop :: log) = (start, stop) :: streak id log := if_pos rfl

/-- A renewal can only make a streak shorter. -/
theorem due_renewed {c : ℕ} {log : List Event} (h : Due (streak id log) time) :
    Due (streak id (.renewed c :: log)) time := by
  by_cases hc : c = id
  · rw [hc, streak_renewed_self]
    exact due_nil
  · rwa [streak_renewed_ne hc]

theorem remembers_renewed {c : ℕ} {log : List Event} {entry : Option Failed}
    (h : Remembers entry (streak id log)) :
    Remembers entry (streak id (.renewed c :: log)) := by
  by_cases hc : c = id
  · rw [hc, streak_renewed_self]
    exact remembers_nil _
  · rwa [streak_renewed_ne hc]

theorem Holds.renewed (h : Holds s id) (c : ℕ) (written : Bool) :
    Holds (s.renewed c written) id := by
  by_cases hc : c = id
  · refine holds_empty ?_
    rw [hc]
    exact streak_renewed_self id s.log
  · have hsame : streak id (s.renewed c written).log = streak id s.log := streak_renewed_ne hc s.log
    refine ⟨?_, ?_, ?_, ?_⟩
    · rw [hsame]
      exact h.spaced
    · rw [hsame]
      exact h.past
    · have hmemory : (s.renewed c written).renewFailures id = s.renewFailures id :=
        Function.update_of_ne (Ne.symm hc) _ _
      rw [hsame, hmemory]
      exact h.memory
    · intro hp file hfile
      have hstored : (s.renewed c written).stored id = s.stored id := by
        cases written with
        | true => exact Function.update_of_ne (Ne.symm hc) _ _
        | false => rfl
      rw [hsame]
      rcases List.mem_cons.mp hfile with rfl | hfile
      · rw [hstored]
        exact h.files hp _ List.mem_cons_self
      · exact h.files hp file (List.mem_cons_of_mem _ hfile)

theorem Ready.renewed {p : Phase} (h : Ready s p) (c : ℕ) (written : Bool) :
    Ready (s.renewed c written) p := by
  cases p with
  | idle => trivial
  | between rest => exact ⟨h.1, fun d hd => due_renewed (h.2 d hd)⟩
  | renewing d start rest =>
    exact ⟨h.1, fun e he => due_renewed (h.2.1 e he), due_renewed h.2.2.1, h.2.2.2⟩
  | reporting d f read rest =>
    obtain ⟨hnodup, hdue, hown, hread⟩ := h
    exact ⟨hnodup, fun e he => due_renewed (hdue e he), remembers_renewed hown, fun e he =>
      remembers_renewed (hread e he)⟩

theorem Ready.clock {p : Phase} (h : Ready s p) (hn : s.clock ≤ now) :
    Ready { s with clock := now } p := by
  cases p with
  | idle => trivial
  | between rest => exact ⟨h.1, fun d hd => (h.2 d hd).mono hn⟩
  | renewing d start rest =>
    exact ⟨h.1, fun e he => (h.2.1 e he).mono hn, h.2.2.1, h.2.2.2.trans hn⟩
  | reporting d f read rest => exact ⟨h.1, fun e he => (h.2.1 e he).mono hn, h.2.2⟩

/-- What the tick does not skip is due. -/
theorem due_of_not_skips {entry : Option Failed} (h : Remembers entry l)
    (hs : skips entry now = false) : Due l now := by
  intro start stop rest hl
  obtain ⟨f, rfl, -, hdue⟩ := h (by rw [hl]; exact List.cons_ne_nil _ _)
  have hnext : f.nextAttempt ≤ now := by
    have hnot : ¬ now < f.nextAttempt := of_decide_eq_false hs
    omega
  exact hdue.mono hnext start stop rest hl

/-- The attempt that fails is remembered with its streak. -/
theorem remembers_failure (h : Remembers (s.renewFailures id) (streak id s.log)) (start now : ℕ) :
    Remembers (some (s.failure id now)) ((start, now) :: streak id s.log) := by
  have hcount : (streak id s.log).length + 1 ≤ (s.failure id now).failures := by
    cases hl : streak id s.log with
    | nil => exact Nat.succ_le_succ (Nat.zero_le _)
    | cons x rest =>
      obtain ⟨f, hf, hlen, -⟩ := h (by rw [hl]; exact List.cons_ne_nil _ _)
      rw [hl] at hlen
      have hfailures : (s.failure id now).failures = f.failures + 1 := by
        rw [State.failure, hf]
        rfl
      rw [hfailures]
      exact Nat.succ_le_succ hlen
  refine fun _ => ⟨_, rfl, hcount, ?_⟩
  rintro start' stop' rest hl
  obtain ⟨hhead, hrest⟩ := List.cons.inj hl
  obtain ⟨-, rfl⟩ := Prod.mk.inj hhead
  exact Nat.add_le_add_left (renewalBackoffMs_mono hcount) _

theorem Spaced.cons {start stop : ℕ} (h : Spaced l) (hdue : Due l start) (hle : start ≤ stop) :
    Spaced ((start, stop) :: l) := by
  cases l with
  | nil => exact hle
  | cons x rest =>
    obtain ⟨start', stop'⟩ := x
    exact ⟨hle, hdue start' stop' rest rfl, h⟩

/-- The phase matters to a certificate only while its failure is reported. -/
theorem Holds.move (h : Holds s id) (hp : Quiet s.phase id) (p : Phase) :
    Holds { s with phase := p } id :=
  ⟨h.spaced, h.past, h.memory, fun _ => h.files hp⟩

/-- Each new file is one of the old ones. -/
theorem Holds.keepFiles {stored : Failures} {warnings : List Failures} (h : Holds s id)
    (hfiles : ∀ file ∈ stored :: warnings, file ∈ s.files) :
    Holds { s with stored := stored, warnings := warnings } id :=
  ⟨h.spaced, h.past, h.memory, fun hp file hfile => h.files hp file (hfiles file hfile)⟩

theorem remembers_restored {entries : Failures} (h : Remembers (entries id) l) :
    Remembers (restored entries id) l := by
  intro hl
  obtain ⟨f, hf, hlen, hdue⟩ := h hl
  refine ⟨⟨if f.failures = 0 then 1 else f.failures, f.nextAttempt⟩,
    by rw [restored, hf]; rfl, ?_, hdue⟩
  dsimp only
  split
  · omega
  · exact hlen

theorem Inv.clock (h : Inv s) (hn : s.clock ≤ now) : Inv { s with clock := now } :=
  ⟨fun id => (h.holds id).clock hn, h.ready.clock hn⟩

theorem quiet_renewing {start : ℕ} {rest : List ℕ} (hphase : s.phase = .renewing id start rest)
    (c : ℕ) : Quiet s.phase c := by
  intro d f read more hd
  rw [hphase] at hd
  cases hd

/-- A failure lengthens the streak of its own certificate only. -/
theorem Holds.fail {start : ℕ} {rest : List ℕ} (h : ∀ c, Holds s c)
    (hphase : s.phase = .renewing id start rest)
    (hdue : Due (streak id s.log) start) (hstart : start ≤ s.clock) (c : ℕ) :
    Holds { s with
      renewFailures := Function.update s.renewFailures id (some (s.failure id s.clock))
      phase := .reporting id (s.failure id s.clock) s.stored rest
      log := .failed id start s.clock :: s.log } c := by
  by_cases hc : id = c
  · subst hc
    have hlog := streak_failed_self id start s.clock s.log
    refine ⟨?_, ?_, ?_, ?_⟩
    · rw [hlog]
      exact (h id).spaced.cons hdue hstart
    · rw [hlog]
      intro x hx
      rcases List.mem_cons.mp hx with rfl | hx
      · exact le_refl _
      · exact (h id).past x hx
    · dsimp only
      rw [hlog, Function.update_self]
      exact remembers_failure (h id).memory start s.clock
    · intro hp
      exact absurd rfl (hp _ _ _ _ rfl)
  · have hlog : streak c (.failed id start s.clock :: s.log) = streak c s.log :=
      streak_failed_ne hc s.log
    refine ⟨?_, ?_, ?_, ?_⟩
    · rw [hlog]
      exact (h c).spaced
    · rw [hlog]
      exact (h c).past
    · dsimp only
      rw [hlog, Function.update_of_ne (Ne.symm hc)]
      exact (h c).memory
    · intro _
      rw [hlog]
      exact (h c).files (quiet_renewing hphase c)

theorem Inv.fail {start : ℕ} {rest : List ℕ} (h : Inv s)
    (hphase : s.phase = .renewing id start rest) :
    Inv { s with
      renewFailures := Function.update s.renewFailures id (some (s.failure id s.clock))
      phase := .reporting id (s.failure id s.clock) s.stored rest
      log := .failed id start s.clock :: s.log } := by
  have hready := h.ready
  rw [hphase] at hready
  obtain ⟨hnodup, hdue, hown, hstart⟩ := hready
  obtain ⟨hnew, hrest⟩ := List.nodup_cons.mp hnodup
  refine ⟨Holds.fail h.holds hphase hown hstart, hrest, ?_, ?_, ?_⟩
  · intro c hc
    have hne : id ≠ c := by
      rintro rfl
      exact hnew hc
    rw [streak_failed_ne hne]
    exact hdue c hc
  · rw [streak_failed_self]
    exact remembers_failure (h.holds id).memory start s.clock
  · intro c hc
    rw [streak_failed_ne (Ne.symm hc)]
    exact (h.holds c).files (quiet_renewing hphase c) s.stored List.mem_cons_self

/-- With no warning under way, the file that `onFailure` writes is the only one. -/
theorem Inv.report {read : Failures} {rest : List ℕ} (h : Inv s)
    (hphase : s.phase = .reporting id f read rest) (hnone : s.warnings = []) :
    Inv { s with stored := Function.update read id (some f), phase := .between rest } := by
  have hready := h.ready
  rw [hphase] at hready
  obtain ⟨hnodup, hdue, hremembers, hread⟩ := hready
  refine ⟨?_, hnodup, hdue⟩
  intro c
  obtain ⟨hspaced, hpast, hmemory, -⟩ := h.holds c
  refine ⟨hspaced, hpast, hmemory, ?_⟩
  intro _ file hfile
  obtain rfl : file = Function.update read id (some f) := by
    rw [State.files, hnone] at hfile
    exact List.mem_singleton.mp hfile
  by_cases hc : c = id
  · rw [hc, Function.update_self]
    exact hremembers
  · rw [Function.update_of_ne hc]
    exact hread c hc

/-- The process starts again with what the state file remembers. -/
theorem Inv.restart (h : Inv s) (hquiet : ∀ c f read rest, s.phase ≠ .reporting c f read rest) :
    Inv { s with renewFailures := restored s.stored, warnings := [], phase := .idle } := by
  refine ⟨?_, trivial⟩
  intro c
  obtain ⟨hspaced, hpast, -, hfiles⟩ := h.holds c
  have hremembers : Remembers (s.stored c) (streak c s.log) :=
    hfiles (fun d f read rest hp => absurd hp (hquiet d f read rest)) s.stored List.mem_cons_self
  refine ⟨hspaced, hpast, remembers_restored hremembers, ?_⟩
  intro _ file hfile
  rw [List.mem_singleton.mp hfile]
  exact hremembers

theorem inv_initial : Inv initial := ⟨fun _ => holds_empty rfl, trivial⟩

theorem step_inv (hs : Step s (now, a) t) (hok : Timely s (now, a)) (hinv : Inv s) : Inv t := by
  unfold Step step at hs
  dsimp only at hs
  split at hs
  · cases hs
  next hclock =>
  have h : Inv { s with clock := now } := hinv.clock (by omega)
  clear hclock hinv
  obtain ⟨clock, memory, stored, warnings, phase, log⟩ := s
  obtain ⟨hholds, hready⟩ := h
  dsimp only at hs hholds hready
  cases a with
  | tick expiring =>
    cases phase with
    | idle =>
      dsimp only at hs
      split at hs
      · next hnodup =>
        obtain rfl := Option.some.inj hs
        refine ⟨fun c => (hholds c).move nofun _, hnodup.filter _, ?_⟩
        intro c hc
        obtain ⟨-, hskip⟩ := List.mem_filter.mp hc
        exact due_of_not_skips (hholds c).memory (by simpa using hskip)
      · cases hs
    | between rest => cases hs
    | renewing c start rest => cases hs
    | reporting c f read rest => cases hs
  | begin =>
    cases phase with
    | idle => cases hs
    | between rest =>
      cases rest with
      | nil => cases hs
      | cons c rest =>
        obtain rfl := Option.some.inj hs
        obtain ⟨hnodup, hdue⟩ := hready
        refine ⟨fun d => (hholds d).move nofun _, hnodup, ?_, hdue c List.mem_cons_self, le_refl _⟩
        exact fun d hd => hdue d (List.mem_cons_of_mem _ hd)
    | renewing c start rest => cases hs
    | reporting c f read rest => cases hs
  | renewed c written =>
    obtain rfl : State.renewed ⟨now, memory, stored, warnings, phase, log⟩ c written = t := by
      cases phase <;> exact Option.some.inj hs
    exact ⟨fun d => (hholds d).renewed c written, hready.renewed c written⟩
  | succeed written =>
    cases phase with
    | idle => cases hs
    | between rest => cases hs
    | renewing c start rest =>
      obtain rfl := Option.some.inj hs
      obtain ⟨hnodup, hdue, -⟩ := hready
      refine ⟨fun d => ((hholds d).renewed c written).move nofun _, (List.nodup_cons.mp hnodup).2,
        ?_⟩
      exact fun d hd => due_renewed (hdue d hd)
    | reporting c f read rest => cases hs
  | fail =>
    cases phase with
    | idle => cases hs
    | between rest => cases hs
    | renewing c start rest =>
      obtain rfl := Option.some.inj hs
      exact Inv.fail ⟨hholds, hready⟩ rfl
    | reporting c f read rest => cases hs
  | report written =>
    obtain ⟨rfl, hnone⟩ : written = true ∧ warnings = [] := by
      have hboth : (written && warnings.isEmpty) = true := by
        cases phase <;> exact hok
      rw [Bool.and_eq_true, List.isEmpty_iff] at hboth
      exact hboth
    cases phase with
    | idle => cases hs
    | between rest => cases hs
    | renewing c start rest => cases hs
    | reporting c f read rest =>
      obtain rfl := Option.some.inj hs
      exact Inv.report ⟨hholds, hready⟩ rfl hnone
  | check =>
    obtain rfl : (⟨now, memory, stored, warnings ++ [stored], phase, log⟩ : State) = t := by
      cases phase <;> exact Option.some.inj hs
    refine ⟨fun d => (hholds d).keepFiles fun file hfile => ?_, hready⟩
    rcases List.mem_cons.mp hfile with rfl | hfile
    · exact List.mem_cons_self
    rcases List.mem_append.mp hfile with hfile | hfile
    · exact List.mem_cons_of_mem _ hfile
    · rw [List.mem_singleton.mp hfile]
      exact List.mem_cons_self
  | checked k written =>
    have hs : (warnings[k]?.map fun read =>
        (⟨now, memory, if written then read else stored, warnings.eraseIdx k, phase, log⟩ :
          State)) = some t := by
      cases phase <;> exact hs
    obtain ⟨read, hread, rfl⟩ := Option.map_eq_some_iff.mp hs
    refine ⟨fun d => (hholds d).keepFiles fun file hfile => ?_, hready⟩
    rcases List.mem_cons.mp hfile with rfl | hfile
    · cases written with
      | true => exact List.mem_cons_of_mem _ (List.mem_of_getElem? hread)
      | false => exact List.mem_cons_self
    · exact List.mem_cons_of_mem _ (List.eraseIdx_subset hfile)
  | finish =>
    cases phase with
    | idle => cases hs
    | between rest =>
      cases rest with
      | nil =>
        obtain rfl := Option.some.inj hs
        exact ⟨fun d => (hholds d).move nofun _, trivial⟩
      | cons c rest => cases hs
    | renewing c start rest => cases hs
    | reporting c f read rest => cases hs
  | restart =>
    have hquiet : ∀ c f read rest, phase ≠ .reporting c f read rest := by
      rintro c f read rest rfl
      cases hok
    obtain rfl : (⟨now, restored stored, stored, [], .idle, log⟩ : State) = t := by
      cases phase <;> exact Option.some.inj hs
    exact Inv.restart ⟨hholds, hready⟩ hquiet

theorem run_inv (h : Runs initial xs s) : Inv s := by
  refine h.guarded_invariant (I := Inv) ?_ inv_initial
  intro u a v hs hok hu
  exact step_inv hs hok hu

/-- In every run, over restarts, warnings and renewals by hand, each automatic attempt at a
certificate that keeps failing begins no earlier than the back-off after the last one ended. -/
theorem attempts_spaced (h : Runs initial xs s) (id : ℕ) : Spaced (streak id s.log) :=
  ((run_inv h).holds id).spaced

/-! How many attempts fit into a time. -/

/-- The first `n` back-offs together. -/
def total (n : ℕ) : ℕ := ∑ i ∈ Finset.range n, renewalBackoffMs (i + 1)

theorem total_succ (n : ℕ) : total (n + 1) = total n + renewalBackoffMs (n + 1) :=
  Finset.sum_range_succ _ _

theorem Spaced.tail {x : ℕ × ℕ} (h : Spaced (x :: l)) : Spaced l := by
  cases l with
  | nil => trivial
  | cons y rest => exact h.2.2

theorem Spaced.of_append (h : Spaced (w ++ l)) : Spaced l := by
  induction w with
  | nil => exact h
  | cons x w ih => exact ih h.tail

theorem Spaced.head {start stop : ℕ} (h : Spaced ((start, stop) :: l)) : start ≤ stop := by
  cases l with
  | nil => exact h
  | cons y rest => exact h.1

/-- Between two failed attempts with `w` others in between lie at least as many back-offs, however
long the streak was before. -/
theorem Spaced.span {start stop first last : ℕ} {older : List (ℕ × ℕ)}
    (h : Spaced ((start, stop) :: w ++ (first, last) :: older)) :
    first + total (w.length + 1) ≤ start := by
  induction w generalizing start stop with
  | nil =>
    have hgap : last + renewalBackoffMs (older.length + 1) ≤ start := h.2.1
    have hfirst : first ≤ last := h.tail.head
    have hone : total 1 = renewalBackoffMs 1 := by
      rw [total, Finset.sum_range_one]
    have hmono : renewalBackoffMs 1 ≤ renewalBackoffMs (older.length + 1) :=
      renewalBackoffMs_mono (by omega)
    simp only [List.length_nil, Nat.zero_add]
    omega
  | cons x w ih =>
    obtain ⟨start', stop'⟩ := x
    have hgap : stop' + renewalBackoffMs ((w ++ (first, last) :: older).length + 1) ≤ start := h.2.1
    have hbegin : start' ≤ stop' := h.tail.head
    have hrest : first + total (w.length + 1) ≤ start' := ih h.tail
    have hmono : renewalBackoffMs (w.length + 2) ≤
        renewalBackoffMs ((w ++ (first, last) :: older).length + 1) := by
      refine renewalBackoffMs_mono ?_
      rw [List.length_append, List.length_cons]
      omega
    have hsum : total (w.length + 2) = total (w.length + 1) + renewalBackoffMs (w.length + 2) :=
      total_succ _
    show first + total (w.length + 2) ≤ start
    omega

/-- In every run, `n` failed attempts at a certificate without a renewal in between take at least
the first `n - 1` back-offs. -/
theorem failed_attempts_take {start stop first last : ℕ} {newer older : List (ℕ × ℕ)}
    (h : Runs initial xs s)
    (hw : streak id s.log = newer ++ ((start, stop) :: w ++ (first, last) :: older)) :
    first + total (w.length + 1) ≤ start := by
  have hspaced := attempts_spaced h id
  rw [hw] at hspaced
  exact hspaced.of_append.span

/-- Eleven failed attempts take more than a week. -/
example : 7 * 24 * hour < total 10 := by decide

/-- Two certificates; the first fails, a warning is sent meanwhile, the process restarts, and the
first is skipped until its time has come. -/
def sampleRun : List (ℕ × Act) :=
  [(0, .check), (0, .tick [1, 2]), (10, .begin), (20, .fail), (25, .checked 0 true),
    (30, .report true), (30, .check), (30, .begin),
    (40, .succeed true), (40, .finish), (45, .checked 0 true), (50, .restart), (60, .tick [1]),
      (60, .finish),
    (2 * hour + 20, .tick [1]), (2 * hour + 20, .begin), (2 * hour + 30, .fail)]

theorem sampleRun_runs :
    ∃ s, Runs initial sampleRun s ∧
    streak 1 s.log = [(2 * hour + 20, 2 * hour + 30), (10, 20)] := by
  have hend : (sampleRun.foldlM (Run.checked (fun s a => step s a.1 a.2) Timely) initial).any
      (fun s => decide (streak 1 s.log = [(2 * hour + 20, 2 * hour + 30), (10, 20)])) = true := by
        decide +kernel
  obtain ⟨s, hs, hstreak⟩ := (Option.any_eq_true _ _).mp hend
  exact ⟨s, Run.of_checked hs, of_decide_eq_true hstreak⟩

theorem attempts_spaced_sampleRun :
    ∃ s : State, streak 1 s.log = [(2 * hour + 20, 2 * hour + 30), (10, 20)] ∧
      Spaced (streak 1 s.log) := by
  obtain ⟨s, hs, hstreak⟩ := sampleRun_runs
  exact ⟨s, hstreak, attempts_spaced hs 1⟩

theorem failed_attempts_take_sampleRun : 10 + total 1 ≤ 2 * hour + 20 := by
  obtain ⟨s, hs, hstreak⟩ := sampleRun_runs
  have hlog : streak 1 s.log = [] ++ ((2 * hour + 20, 2 * hour + 30) :: [] ++ (10, 20) :: []) :=
    hstreak
  exact failed_attempts_take hs hlog

end FloppyGuard.Certificates.RenewalTimer
