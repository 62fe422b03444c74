import FloppyGuard.Lib.Run
import FloppyGuard.Lib.Table
import FloppyGuard.Lib.Text
import Mathlib.Logic.Function.Basic

/-! The warnings about certificates: `onFailure`, `onSuccess`, `forget` and `checkExpiring`, each
stretch between two awaits one step. The texts of the mails are left out. -/
namespace FloppyGuard.Certificates.RenewalAlerts

def mailEveryMs : ℕ := 24 * 60 * 60 * 1000

inductive Standing
  | failed
  | ok
deriving DecidableEq

structure Entry where
  state : Standing
  name : String
  failures : ℕ
  error : String
  since : ℕ
  lastAttempt : ℕ
  nextAttempt : ℕ
  expiresOn : Option String
  lastMailAt : Option ℕ
deriving DecidableEq

structure StateFile where
  certs : Table ℕ Entry
  expiringMailDay : Option String

/-- A file that cannot be read is an empty one. -/
def readState (file : Option StateFile) : StateFile := file.getD ⟨.empty, none⟩

structure Certificate where
  id : ℕ
  niceName : String
  domainNames : Option (List String)
  provider : String
  expiresOn : Option String

def certName (c : Certificate) : String :=
  if c.niceName ≠ "" then c.niceName
  else match c.domainNames with
    | some names => ", ".intercalate names
    | none => "#" ++ toString c.id

def shortError (msg : String) : String :=
  let text := if msg = "" then "unbekannter Fehler" else msg
  String.ofList
    (Text.slice 600 (Text.collapse (text.toList.map fun c => if Text.isSpace c then ' ' else c)))

/-- `time || null` -/
def orNull : Option ℕ → Option ℕ
  | some 0 => none
  | time => time

/-- The entry that `onFailure` writes when it sends no mail. -/
def failedEntry (certificate : Certificate) (err : String) (failures nextAttempt now : ℕ)
    (prev : Option Entry) : Entry :=
  let failed := prev.filter (·.state = .failed)
  { state := .failed
    name := certName certificate
    failures
    error := shortError err
    since := (failed.map Entry.since).getD now
    lastAttempt := now
    nextAttempt
    expiresOn := certificate.expiresOn
    lastMailAt := failed.bind fun e => orNull e.lastMailAt }

/-- A mail is due: `!entry.last_mail_at || now - entry.last_mail_at >= MAIL_EVERY_MS`. -/
def due (entry : Entry) (now : ℕ) : Bool :=
  match orNull entry.lastMailAt with
  | none => true
  | some time => mailEveryMs ≤ now - time

/-- The entry that is written when the mail has its answer. -/
def answered (entry : Entry) (now : ℕ) (ok : Bool) : Entry :=
  if ok then { entry with lastMailAt := some now } else entry

/-! What the interface shows as a warning. -/

/-- The calendar day of a clock value, and the clock value of a stored date. -/
structure Moment where
  day : ℕ → String
  valueOf : String → ℤ

inductive Kind
  | expired
  | failed
  | expiring
deriving DecidableEq

def Kind.order : Kind → ℕ
  | expired => 0
  | failed => 1
  | expiring => 2

structure Problem where
  id : ℕ
  name : String
  provider : String
  expiresOn : Option String
  daysLeft : Option ℤ
  kind : Kind
  error : Option String
  failures : ℕ
  since : Option ℕ
  nextAttempt : Option ℕ

def problem (m : Moment) (days now : ℕ) (certs : Table ℕ Entry) (c : Certificate) :
    Option Problem :=
  let exp := c.expiresOn.map m.valueOf
  let failed := (certs.get? c.id).filter (·.state = .failed)
  let expired := exp.any (· ≤ (now : ℤ))
  let expiring := !expired && exp.any (· ≤ (now : ℤ) + days * 86400000)
  if failed.isNone && !expired && !expiring then none
  else some
    { id := c.id
      name := certName c
      provider := c.provider
      expiresOn := c.expiresOn
      daysLeft := exp.map fun time => (time - now) / 86400000
      kind := if expired then .expired else if failed.isSome then .failed else .expiring
      error := failed.bind fun e => if e.error = "" then none else some e.error
      failures := (failed.map Entry.failures).getD 0
      since := failed.bind fun e => orNull (some e.since)
      nextAttempt := failed.bind fun e => orNull (some e.nextAttempt) }

def Problem.le (a b : Problem) : Bool :=
  a.kind.order < b.kind.order || a.kind.order = b.kind.order &&
    a.daysLeft.getD 0 ≤ b.daysLeft.getD 0

def problems (m : Moment) (days now : ℕ) (certs : Table ℕ Entry) (rows : List Certificate) :
    List Problem :=
  (rows.filterMap (problem m days now certs)).mergeSort Problem.le

/-! The calls. -/

/-- A call that waits, with the file as it read it. -/
inductive Call
  /-- `onFailure` waits for its mail -/
  | failing (id now : ℕ) (read : StateFile) (entry : Entry)
  /-- `onSuccess` waits for its mail -/
  | recovered
  /-- `checkExpiring` waits for the rows -/
  | listing (days now : ℕ) (read : StateFile)
  /-- `checkExpiring` waits for its mail -/
  | warning (now : ℕ) (read : StateFile)

/-- The start of a call. -/
inductive Event
  | failure (id failures nextAttempt now : ℕ) (mailed : Bool)
  | success (id : ℕ)
  | forgotten (id : ℕ)
  | expiring
deriving DecidableEq

/-- The events, newest first; a call is known by the number of events before it. -/
structure State where
  file : Option StateFile
  calls : ℕ → Option Call
  log : List Event
  delivered : ℕ → Bool

inductive Act
  | onFailure (certificate : Certificate) (err : String) (failures nextAttempt now : ℕ)
  | onSuccess (id : ℕ)
  | forget (id : ℕ)
  | checkExpiring (days now : ℕ)
  /-- the rows are there -/
  | list (k : ℕ) (rows : List Certificate)
  /-- the mail is sent, or it failed -/
  | answer (k : ℕ) (ok : Bool)

namespace State

variable (s : State)

def stored (id : ℕ) : Option Entry := (readState s.file).certs.get? id

/-- A call starts and waits, or ends at once. -/
def start (event : Event) (call : Option Call) : State :=
  { s with calls := Function.update s.calls s.log.length call, log := event :: s.log }

def goOn (k : ℕ) (call : Option Call) : State := { s with calls := Function.update s.calls k call }

def put (read : StateFile) (id : ℕ) (entry : Entry) : State :=
  { s with file := some { read with certs := read.certs.set id entry } }

def drop (id : ℕ) : State :=
  { s with file := some { readState s.file with certs := (readState s.file).certs.erase id } }

def deliver (k : ℕ) (ok : Bool) : State :=
  { s with delivered := if ok then Function.update s.delivered k true else s.delivered }

end State

variable (m : Moment)

def step (s : State) : Act → Option State
  | .onFailure certificate err failures nextAttempt now =>
    let read := readState s.file
    let entry :=
      failedEntry certificate err failures nextAttempt now (read.certs.get? certificate.id)
    let event := .failure certificate.id failures nextAttempt now (due entry now)
    if due entry now then some (s.start event (some (.failing certificate.id now read entry)))
    else some ((s.start event none).put read certificate.id entry)
  | .onSuccess id =>
    match s.stored id with
    | none => some (s.start (.success id) none)
    | some prev =>
      some ((s.start (.success id) (if prev.state = .failed then some .recovered else none)).drop
        id)
  | .forget id =>
    if (s.stored id).isSome then some ((s.start (.forgotten id) none).drop id)
    else some (s.start (.forgotten id) none)
  | .checkExpiring days now =>
    let read := readState s.file
    some (s.start .expiring (if read.expiringMailDay = some (m.day now) then none
        else some (.listing days now read)))
  | .list k rows =>
    match s.calls k with
    | some (.listing days now read) =>
      let list := (problems m days now (readState s.file).certs rows).filter (·.kind ≠ .failed)
      some (s.goOn k (if list.isEmpty then none else some (.warning now read)))
    | _ => none
  | .answer k ok =>
    match s.calls k with
    | some (.failing id now read entry) =>
      some (((s.goOn k none).deliver k ok).put read id (answered entry now ok))
    | some .recovered => some (s.goOn k none)
    | some (.warning now read) =>
      some { s.goOn k none with
          file := if ok then some { read with expiringMailDay := some (m.day now) } else s.file }
    | _ => none

def Step (s : State) (a : Act) (t : State) : Prop := step m s a = some t

/-! What the events say. -/

/-- The certificate whose failure an event begins or ends. -/
def Event.about : Event → Option ℕ
  | failure id .. | success id | forgotten id => some id
  | expiring => none

/-- The failure count and the next attempt, where the event is a failure. -/
def Event.outcome : Event → Option (ℕ × ℕ)
  | failure _ failures nextAttempt _ _ => some (failures, nextAttempt)
  | _ => none

/-- What the last event of a certificate says of it; without one, what was known before. -/
def last (before : ℕ → Option (ℕ × ℕ)) : List Event → ℕ → Option (ℕ × ℕ)
  | [], id => before id
  | e :: log, id => if e.about = some id then e.outcome else last before log id

/-- The delivered failure mails of a certificate since its last success or removal, newest first. -/
def mails (delivered : ℕ → Bool) (id : ℕ) : List Event → List ℕ
  | [] => []
  | .failure c _ _ now mailed :: log =>
    if c = id && mailed && delivered log.length then now :: mails delivered id log
    else mails delivered id log
  | .success c :: log | .forgotten c :: log => if c = id then [] else mails delivered id log
  | .expiring :: log => mails delivered id log

def Entry.planned (e : Entry) : ℕ × ℕ := (e.failures, e.nextAttempt)

def State.listed (s : State) (id : ℕ) : Option (ℕ × ℕ) := (s.stored id).map Entry.planned

/-- When all calls have ended, the file lists what the last events say; and no two delivered failure
mails of a certificate, without a success or a removal in between, are less than a day apart. -/
def Kept (before : ℕ → Option (ℕ × ℕ)) (s : State) : Prop :=
  ((∀ k, s.calls k = none) → ∀ id, s.listed id = last before s.log id) ∧
    ∀ id log, log <:+ s.log → (mails s.delivered id log).Pairwise fun later earlier =>
      earlier + mailEveryMs ≤ later

def Failing (s : State) (id : ℕ) : Prop :=
  ∃ k now read entry, s.calls k = some (.failing id now read entry)

/-- No call about a certificate starts while a failure of it waits for its mail; what a call writes
back of the other certificates is what the file has of them; and the clock is past zero. -/
def Undisturbed (s : State) : Act → Prop
  | .onFailure certificate _ _ _ now => ¬ Failing s certificate.id ∧ 0 < now
  | .onSuccess id | .forget id => ¬ Failing s id
  | .answer k ok =>
    (∀ id now read entry, s.calls k = some (.failing id now read entry) →
      ∀ c, c ≠ id → read.certs.get? c = s.stored c) ∧
    (∀ now read, s.calls k = some (.warning now read) → ok = true →
      ∀ c, read.certs.get? c = s.stored c)
  | _ => True

/-- No call has started, with any file. -/
def initial (file : Option StateFile) : State := ⟨file, fun _ => none, [], fun _ => false⟩

variable {m : Moment} {s t u : State} {a : Act} {acts : List Act} {before : ℕ → Option (ℕ × ℕ)}
  {file : Option StateFile}
  {read : StateFile} {entry : Entry} {event : Event} {call : Option Call} {id c k now : ℕ}
    {delivered : ℕ → Bool}
  {log newer older : List Event}

@[simp] theorem stored_start : (s.start event call).stored c = s.stored c := rfl

@[simp] theorem stored_goOn : (s.goOn k call).stored c = s.stored c := rfl

@[simp] theorem stored_deliver {ok : Bool} : (s.deliver k ok).stored c = s.stored c := rfl

theorem stored_put : (s.put read id entry).stored c = if c = id then some entry
    else read.certs.get? c := Table.get?_set

/-! Events of other certificates. -/

theorem last_cons_of_ne (h : event.about ≠ some c) :
    last before (event :: log) c = last before log c := if_neg h

theorem mails_cons_of_ne (h : event.about ≠ some c) :
    mails delivered c (event :: log) = mails delivered c log := by
  cases event with
  | failure id _ _ _ mailed =>
    have hne : id ≠ c := fun he => h (congrArg some he)
    simp [mails, hne]
  | success id | forgotten id => exact if_neg fun he => h (congrArg some he)
  | expiring => rfl

theorem last_append (h : ∀ e ∈ newer, e.about ≠ some c) :
    last before (newer ++ log) c = last before log c := by
  induction newer with
  | nil => rfl
  | cons e newer ih =>
    obtain ⟨he, hnewer⟩ := List.forall_mem_cons.mp h
    exact (last_cons_of_ne he).trans (ih hnewer)

theorem mails_append (h : ∀ e ∈ newer, e.about ≠ some c) :
    mails delivered c (newer ++ log) = mails delivered c log := by
  induction newer with
  | nil => rfl
  | cons e newer ih =>
    obtain ⟨he, hnewer⟩ := List.forall_mem_cons.mp h
    exact (mails_cons_of_ne he).trans (ih hnewer)

/-- A mail counts for the certificate of its event only. -/
theorem mails_update
    (h : ∀ newer e older, log = newer ++ e :: older → older.length = k → e.about ≠ some c) :
    mails (Function.update delivered k true) c log = mails delivered c log := by
  induction log with
  | nil => rfl
  | cons e log ih =>
    have hlog := ih fun newer e' older he => h (e :: newer) e' older (congrArg (e :: ·) he)
    by_cases hk : log.length = k
    · have hne := h [] e log rfl hk
      rw [mails_cons_of_ne hne, mails_cons_of_ne hne, hlog]
    · have hsame : Function.update delivered k true log.length = delivered log.length :=
        Function.update_of_ne hk ..
      cases e with
      | failure => simp only [mails, hsame, hlog]
      | success | forgotten | expiring => simp only [mails, hlog]

/-- A mail of a later call does not count yet. -/
theorem mails_update_of_le (h : log.length ≤ k) :
    mails (Function.update delivered k true) c log = mails delivered c log := by
  refine mails_update fun newer e older he hk => ?_
  have hlen := congrArg List.length he
  simp only [List.length_append, List.length_cons] at hlen
  omega

/-! What the entry of a certificate knows of its mails. -/

/-- The entry has the time of a mail that is no older than any of these. -/
def Mailed (entry : Option Entry) (times : List ℕ) : Prop :=
  ∀ time ∈ times, ∃ e newest, entry = some e ∧ e.state = .failed ∧ e.lastMailAt = some newest ∧
    0 < newest ∧ time ≤ newest

theorem orNull_of_pos (h : 0 < k) : orNull (some k) = some k := by
  cases k with
  | zero => exact absurd h (Nat.lt_irrefl 0)
  | succ => rfl

theorem mailed_failedEntry {certificate : Certificate} {err : String} {failures nextAttempt : ℕ}
    {prev : Option Entry}
    {times : List ℕ} (h : Mailed prev times) :
    Mailed (some (failedEntry certificate err failures nextAttempt now prev)) times := by
  intro time htime
  obtain ⟨e, newest, rfl, hfailed, hmail, hpos, hle⟩ := h time htime
  have hkept : (failedEntry certificate err failures nextAttempt now (some e)).lastMailAt =
      orNull e.lastMailAt := by
    simp [failedEntry, Option.filter, hfailed]
  refine ⟨_, newest, rfl, rfl, ?_, hpos, hle⟩
  rw [hkept, hmail, orNull_of_pos hpos]

/-- A mail that is due is sent a day after the others. -/
theorem day_of_due {times : List ℕ} (h : Mailed (some entry) times) (hdue : due entry now = true) :
    ∀ time ∈ times, time + mailEveryMs ≤ now := by
  intro time htime
  obtain ⟨e, newest, he, -, hmail, hpos, hle⟩ := h time htime
  obtain rfl := Option.some.inj he
  rw [due, hmail, orNull_of_pos hpos] at hdue
  have hday := of_decide_eq_true hdue
  have hlong : 0 < mailEveryMs := by decide
  omega

/-! The invariant. -/

/-- A failure that waits for its mail: its event is the last one of its certificate. -/
structure Waiting (s : State) (k id now : ℕ) (entry : Entry) : Prop where
  due : due entry now = true
  clock : 0 < now
  failed : entry.state = .failed
  unsent : s.delivered k = false
  event : ∃ newer older, s.log = newer ++ .failure id entry.failures entry.nextAttempt now true ::
    older ∧
    older.length = k ∧ ∀ e ∈ newer, e.about ≠ some id
  mailed : Mailed (some entry) (mails s.delivered id s.log)

structure Invariant (before : ℕ → Option (ℕ × ℕ)) (s : State) : Prop where
  waiting : ∀ k id now read entry, s.calls k = some (.failing id now read entry) →
    Waiting s k id now entry
  alone : ∀ k k' id now now' read read' entry entry',
    s.calls k = some (.failing id now read entry) →
    s.calls k' = some (.failing id now' read' entry') → k = k'
  fresh : ∀ k, s.log.length ≤ k → s.calls k = none ∧ s.delivered k = false
  listed : ∀ id, ¬ Failing s id → s.listed id = last before s.log id
  mailed : ∀ id, ¬ Failing s id → Mailed (s.stored id) (mails s.delivered id s.log)
  spaced : ∀ id log, log <:+ s.log →
    (mails s.delivered id log).Pairwise fun later earlier => earlier + mailEveryMs ≤ later

theorem Invariant.kept (h : Invariant before s) : Kept before s := by
  refine ⟨fun hdone id => h.listed id ?_, h.spaced⟩
  rintro ⟨k, now, read, entry, hcall⟩
  rw [hdone k] at hcall
  cases hcall

theorem invariant_initial : Invariant (initial file).listed (initial file) where
  waiting _ _ _ _ _ h := nomatch h
  alone _ _ _ _ _ _ _ _ _ h := nomatch h
  fresh _ _ := ⟨rfl, rfl⟩
  listed _ _ := rfl
  mailed _ _ _ h := nomatch h
  spaced id log h := by
    obtain rfl := List.suffix_nil.mp h
    exact .nil

/-! A call starts. -/

theorem failing_start (hi : Invariant before s) (h : Failing s c) :
    Failing (s.start event call) c := by
  obtain ⟨k, now, read, entry, hcall⟩ := h
  refine ⟨k, now, read, entry, ?_⟩
  have hne : k ≠ s.log.length := by
    rintro rfl
    rw [(hi.fresh _ (Nat.le_refl _)).1] at hcall
    cases hcall
  exact (Function.update_of_ne hne ..).trans hcall

theorem calls_update {x : Call} (h : Function.update s.calls k call c = some x) :
    c = k ∧ call = some x ∨ c ≠ k ∧ s.calls c = some x := by
  by_cases hc : c = k
  · subst hc
    rw [Function.update_self] at h
    exact .inl ⟨rfl, h⟩
  · rw [Function.update_of_ne hc] at h
    exact .inr ⟨hc, h⟩

/-- A mail just sent does not count yet. -/
theorem mails_start (hi : Invariant before s) :
    mails s.delivered c (event :: s.log) = mails s.delivered c s.log ∨
    mails s.delivered c (event :: s.log) = [] := by
  have hopen := (hi.fresh _ (Nat.le_refl s.log.length)).2
  cases event with
  | failure => exact .inl (by simp [mails, hopen])
  | success id | forgotten id =>
    by_cases h : id = c
    · exact .inr (if_pos h)
    · exact .inl (if_neg h)
  | expiring => exact .inl rfl

theorem Waiting.start (h : Waiting s k id now entry) (hne : event.about ≠ some id) :
    Waiting (s.start event call) k id now entry where
  due := h.due
  clock := h.clock
  failed := h.failed
  unsent := h.unsent
  event := by
    obtain ⟨newer, older, hlog, hlen, hnewer⟩ := h.event
    refine ⟨event :: newer, older, congrArg (event :: ·) hlog, hlen, ?_⟩
    exact List.forall_mem_cons.mpr ⟨hne, hnewer⟩
  mailed := by
    change Mailed _ (mails s.delivered id (event :: s.log))
    rw [mails_cons_of_ne hne]
    exact h.mailed

/-- The start of a call about a certificate that no failure waits for. -/
theorem invariant_start (hi : Invariant before s)
    (hquiet : ∀ id, event.about = some id → ¬ Failing s id)
    (hcall : ∀ id now read entry, call = some (.failing id now read entry) → event.about = some id ∧
      Waiting (s.start event call) s.log.length id now entry)
    (hsame : ∀ c, event.about ≠ some c → (readState file).certs.get? c = s.stored c)
    (hown : ∀ id, event.about = some id →
      (∀ now read entry, call ≠ some (.failing id now read entry)) →
      ((readState file).certs.get? id).map Entry.planned = event.outcome ∧
        Mailed ((readState file).certs.get? id) (mails s.delivered id (event :: s.log))) :
    Invariant before { s.start event call with file } := by
  have hnot : ∀ c, ¬ Failing (s.start event call) c → ∀ now read entry,
      call ≠ some (.failing c now read entry) := by
    rintro c hc now read entry rfl
    exact hc ⟨s.log.length, now, read, entry, Function.update_self ..⟩
  have hbefore : ∀ c, ¬ Failing (s.start event call) c → ¬ Failing s c :=
    fun c hc hf => hc (failing_start hi hf)
  constructor
  case waiting =>
    intro k id now read entry h
    rcases calls_update h with ⟨rfl, hnew⟩ | ⟨-, hold⟩
    · have hw := (hcall id now read entry hnew).2
      exact ⟨hw.due, hw.clock, hw.failed, hw.unsent, hw.event, hw.mailed⟩
    · have hne : event.about ≠ some id := fun habout => hquiet id habout ⟨k, now, read, entry, hold⟩
      have hw : Waiting (s.start event call) k id now entry :=
        (hi.waiting k id now read entry hold).start hne
      exact ⟨hw.due, hw.clock, hw.failed, hw.unsent, hw.event, hw.mailed⟩
  case alone =>
    intro k k' id now now' read read' entry entry' h h'
    rcases calls_update h with ⟨rfl, hnew⟩ | ⟨-, hold⟩
    · rcases calls_update h' with ⟨rfl, -⟩ | ⟨-, hold'⟩
      · rfl
      · exact absurd ⟨k', now', read', entry', hold'⟩ (hquiet id (hcall _ _ _ _ hnew).1)
    · rcases calls_update h' with ⟨rfl, hnew'⟩ | ⟨-, hold'⟩
      · exact absurd ⟨k, now, read, entry, hold⟩ (hquiet id (hcall _ _ _ _ hnew').1)
      · exact hi.alone k k' id now now' read read' entry entry' hold hold'
  case fresh =>
    intro k hk
    have hlt : s.log.length < k := hk
    exact ⟨(Function.update_of_ne hlt.ne' ..).trans (hi.fresh k hlt.le).1, (hi.fresh k hlt.le).2⟩
  case listed =>
    intro c hc
    by_cases habout : event.about = some c
    · exact ((hown c habout (hnot c hc)).1).trans (if_pos habout).symm
    · change ((readState file).certs.get? c).map Entry.planned = last before (event :: s.log) c
      rw [hsame c habout, last_cons_of_ne habout]
      exact hi.listed c (hbefore c hc)
  case mailed =>
    intro c hc
    by_cases habout : event.about = some c
    · exact (hown c habout (hnot c hc)).2
    · change Mailed ((readState file).certs.get? c) (mails s.delivered c (event :: s.log))
      rw [hsame c habout, mails_cons_of_ne habout]
      exact hi.mailed c (hbefore c hc)
  case spaced =>
    intro c log hlog
    rcases List.suffix_cons_iff.mp hlog with rfl | hlog
    · change (mails s.delivered c (event :: s.log)).Pairwise _
      rcases mails_start hi with hsame | hnil
      · exact hsame ▸ hi.spaced c s.log List.suffix_rfl
      · exact hnil ▸ .nil
    · exact hi.spaced c log hlog

theorem invariant_onFailure {certificate : Certificate} {err : String} {failures nextAttempt : ℕ}
    (hi : Invariant before s)
    (hquiet : ¬ Failing s certificate.id) (hclock : 0 < now)
    (hs : Step m s (.onFailure certificate err failures nextAttempt now) t) :
    Invariant before t := by
  let entry := failedEntry certificate err failures nextAttempt now (s.stored certificate.id)
  have habout : ∀ mailed, ∀ id,
    (Event.failure certificate.id failures nextAttempt now mailed).about = some id →
      certificate.id = id := fun _ _ => Option.some.inj
  have hmails : ∀ mailed,
    mails s.delivered certificate.id (.failure certificate.id failures nextAttempt now mailed ::
      s.log) =
      mails s.delivered certificate.id s.log := by
    intro mailed
    simp [mails, (hi.fresh _ (Nat.le_refl s.log.length)).2]
  have hmailed : Mailed (some entry) (mails s.delivered certificate.id s.log) :=
    mailed_failedEntry (hi.mailed _ hquiet)
  have hstep : (if due entry now then
      some (s.start (.failure certificate.id failures nextAttempt now (due entry now))
        (some (.failing certificate.id now (readState s.file) entry)))
    else
      some ((s.start (.failure certificate.id failures nextAttempt now (due entry now)) none).put
        (readState s.file)
      certificate.id entry)) = some t := hs
  by_cases hdue : due entry now = true
  · rw [if_pos hdue, hdue] at hstep
    obtain rfl := Option.some.inj hstep
    refine invariant_start hi (fun id he => habout true id he ▸ hquiet) ?_ (fun _ _ => rfl) ?_
    · intro id now' read' entry' hcall
      obtain ⟨rfl, rfl, -, rfl⟩ := Call.failing.inj (Option.some.inj hcall)
      exact ⟨rfl, hdue, hclock, rfl, (hi.fresh _ (Nat.le_refl _)).2, ⟨[], s.log, rfl, rfl, by simp⟩,
        (hmails true).symm ▸ hmailed⟩
    · intro id he hno
      obtain rfl := habout true id he
      exact absurd rfl (hno _ _ _)
  · rw [if_neg hdue, Bool.eq_false_iff.mpr hdue] at hstep
    obtain rfl := Option.some.inj hstep
    refine invariant_start hi (fun id he => habout false id he ▸ hquiet) nofun ?_ ?_
    · intro c hc
      exact Table.get?_set.trans (if_neg fun he => hc (congrArg some he.symm))
    · intro id he _
      obtain rfl := habout false id he
      have hput : ((readState s.file).certs.set certificate.id entry).get? certificate.id =
          some entry :=
        Table.get?_set.trans (if_pos rfl)
      change (((readState s.file).certs.set certificate.id entry).get? certificate.id).map
        Entry.planned = _ ∧
        Mailed (((readState s.file).certs.set certificate.id entry).get? certificate.id) _
      rw [hput, hmails]
      exact ⟨rfl, hmailed⟩

/-- The entry of the certificate is gone. -/
theorem invariant_settled (hi : Invariant before s)
    (hevent : event = .success id ∨ event = .forgotten id)
    (hcall : call = none ∨ call = some .recovered) (hquiet : ¬ Failing s id)
    (hstored : ∀ c, (readState file).certs.get? c = if c = id then none else s.stored c) :
    Invariant before { s.start event call with file } := by
  have habout : event.about = some id ∧ event.outcome = none ∧
      mails s.delivered id (event :: s.log) = [] := by
    rcases hevent with rfl | rfl
    · exact ⟨rfl, rfl, if_pos rfl⟩
    · exact ⟨rfl, rfl, if_pos rfl⟩
  obtain ⟨habout, houtcome, hmails⟩ := habout
  refine invariant_start hi ?_ ?_ ?_ ?_
  · intro c hc
    obtain rfl := Option.some.inj (habout.symm.trans hc)
    exact hquiet
  · rintro c now read entry rfl
    rcases hcall with hcall | hcall
    · cases hcall
    · cases hcall
  · intro c hc
    exact (hstored c).trans (if_neg fun he : c = id => hc (he ▸ habout))
  · intro c hc _
    obtain rfl := Option.some.inj (habout.symm.trans hc)
    rw [hstored, if_pos rfl, houtcome, hmails]
    exact ⟨rfl, nofun⟩

theorem stored_eq_of_none (h : s.stored id = none) :
    s.stored c = if c = id then none else s.stored c := by
  by_cases hc : c = id
  · rw [if_pos hc, hc, h]
  · rw [if_neg hc]

theorem invariant_onSuccess (hi : Invariant before s) (hquiet : ¬ Failing s id)
    (hs : Step m s (.onSuccess id) t) :
    Invariant before t := by
  change (match s.stored id with
    | none => some (s.start (.success id) none)
    | some prev =>
      some ((s.start (.success id) (if prev.state = .failed then some .recovered else none)).drop
        id)) = some t at hs
  cases hprev : s.stored id with
  | none =>
    rw [hprev] at hs
    obtain rfl := Option.some.inj hs
    exact invariant_settled hi (.inl rfl) (.inl rfl) hquiet fun c => stored_eq_of_none hprev
  | some prev =>
    rw [hprev] at hs
    obtain rfl := Option.some.inj hs
    refine invariant_settled hi (.inl rfl) ?_ hquiet fun c => Table.get?_erase
    by_cases hfailed : prev.state = .failed
    · exact .inr (if_pos hfailed)
    · exact .inl (if_neg hfailed)

theorem invariant_forget (hi : Invariant before s) (hquiet : ¬ Failing s id)
    (hs : Step m s (.forget id) t) :
    Invariant before t := by
  change (if (s.stored id).isSome then some ((s.start (.forgotten id) none).drop id)
    else some (s.start (.forgotten id) none)) = some t at hs
  by_cases hprev : (s.stored id).isSome
  · rw [if_pos hprev] at hs
    obtain rfl := Option.some.inj hs
    exact invariant_settled hi (.inr rfl) (.inl rfl) hquiet fun c => Table.get?_erase
  · rw [if_neg hprev] at hs
    obtain rfl := Option.some.inj hs
    exact invariant_settled hi (.inr rfl) (.inl rfl) hquiet fun c =>
      stored_eq_of_none (Option.not_isSome_iff_eq_none.mp hprev)

theorem invariant_checkExpiring {days : ℕ} (hi : Invariant before s)
    (hs : Step m s (.checkExpiring days now) t) :
    Invariant before t := by
  obtain rfl := Option.some.inj hs
  refine invariant_start hi nofun ?_ (fun _ _ => rfl) nofun
  intro id now' read entry hcall
  split at hcall
  · cases hcall
  · cases hcall

/-! A call goes on. -/

/-- A call that is no failure goes on or ends, and the file says the same of all certificates. -/
theorem invariant_goOn {x : Call} (hi : Invariant before s) (hk : s.calls k = some x)
    (hother : ∀ id now read entry, x ≠ .failing id now read entry)
    (hcall : ∀ id now read entry, call ≠ some (.failing id now read entry))
    (hsame : ∀ c, (readState file).certs.get? c = s.stored c) :
    Invariant before { s.goOn k call with file } := by
  have hold : ∀ {c id now read entry},
    Function.update s.calls k call c = some (.failing id now read entry) →
      s.calls c = some (.failing id now read entry) := by
    intro c id now read entry h
    rcases calls_update h with ⟨-, hnew⟩ | ⟨-, hc⟩
    · exact absurd hnew (hcall id now read entry)
    · exact hc
  have hfailing : ∀ c, Failing s c → Failing { s.goOn k call with file } c := by
    rintro c ⟨j, now, read, entry, hj⟩
    have hne : j ≠ k := by
      rintro rfl
      exact hother c now read entry (Option.some.inj (hk.symm.trans hj))
    exact ⟨j, now, read, entry, (Function.update_of_ne hne ..).trans hj⟩
  have hlisted : State.listed { s.goOn k call with file } = s.listed := by
    funext c
    exact congrArg (Option.map Entry.planned) (hsame c)
  constructor
  case waiting =>
    intro c id now read entry h
    have hw := hi.waiting c id now read entry (hold h)
    exact ⟨hw.due, hw.clock, hw.failed, hw.unsent, hw.event, hw.mailed⟩
  case alone =>
    intro c c' id now now' read read' entry entry' h h'
    exact hi.alone c c' id now now' read read' entry entry' (hold h) (hold h')
  case fresh =>
    intro c hc
    have hne : c ≠ k := by
      rintro rfl
      rw [(hi.fresh c hc).1] at hk
      cases hk
    exact ⟨(Function.update_of_ne hne ..).trans (hi.fresh c hc).1, (hi.fresh c hc).2⟩
  case listed =>
    intro c hc
    rw [hlisted]
    exact hi.listed c fun hf => hc (hfailing c hf)
  case mailed =>
    intro c hc
    change Mailed ((readState file).certs.get? c) (mails s.delivered c s.log)
    rw [hsame c]
    exact hi.mailed c fun hf => hc (hfailing c hf)
  case spaced => exact hi.spaced

/-! A failure has its answer. -/

theorem suffix_cases (h : log <:+ newer ++ event :: older) :
    (∃ newer', newer' <:+ newer ∧ log = newer' ++ event :: older) ∨ log <:+ older := by
  obtain ⟨front, hfront⟩ := h
  rcases List.append_eq_append_iff.mp hfront with ⟨newer', rfl, rfl⟩ | ⟨rest, rfl, hrest⟩
  · exact .inl ⟨newer', List.suffix_append .., rfl⟩
  · have hsuffix : log <:+ event :: older := ⟨rest, hrest.symm⟩
    rcases List.suffix_cons_iff.mp hsuffix with rfl | hsuffix
    · exact .inl ⟨[], List.nil_suffix, rfl⟩
    · exact .inr hsuffix

/-- The mail counts for its own certificate only. -/
theorem Waiting.mails_other (h : Waiting s k id now entry) (hc : c ≠ id) (hlog : log <:+ s.log) :
    mails (Function.update s.delivered k true) c log = mails s.delivered c log := by
  obtain ⟨newer, older, heq, hlen, -⟩ := h.event
  refine mails_update fun newer' e older' he hlen' => ?_
  rw [heq] at hlog
  rcases suffix_cases hlog with ⟨front, -, rfl⟩ | hsuffix
  · obtain ⟨-, hcons⟩ := List.append_inj' he (by simp [hlen, hlen'])
    obtain ⟨rfl, -⟩ := List.cons.inj hcons
    exact fun habout => hc (Option.some.inj habout).symm
  · have hle := hsuffix.length_le
    rw [he, List.length_append, List.length_cons] at hle
    omega

/-- What the answer changes for the certificate of the mail: from its event on the mail counts. -/
theorem Waiting.mails_own (h : Waiting s k id now entry) : ∃ older, older <:+ s.log ∧
    mails s.delivered id s.log = mails s.delivered id older ∧
    ∀ log, log <:+ s.log → mails (Function.update s.delivered k true) id log = now ::
      mails s.delivered id older ∨
      mails (Function.update s.delivered k true) id log = mails s.delivered id log := by
  obtain ⟨newer, older, heq, hlen, hnewer⟩ := h.event
  refine ⟨older, heq ▸ (List.suffix_cons ..).trans (List.suffix_append ..), ?_, ?_⟩
  · rw [heq, mails_append hnewer]
    simp [mails, hlen, h.unsent]
  · intro log hlog
    rw [heq] at hlog
    rcases suffix_cases hlog with ⟨front, hfront, rfl⟩ | hsuffix
    · left
      rw [mails_append fun e he => hnewer e (hfront.subset he)]
      simp [mails, hlen, mails_update_of_le hlen.le]
    · exact .inr (mails_update_of_le (hsuffix.length_le.trans hlen.le))

theorem planned_answered {ok : Bool} : (answered entry now ok).planned = entry.planned := by
  cases ok with
  | true => rfl
  | false => rfl

theorem Waiting.last_eq (h : Waiting s k id now entry) :
    last before s.log id = some entry.planned := by
  obtain ⟨newer, older, heq, -, hnewer⟩ := h.event
  rw [heq, last_append hnewer]
  exact if_pos rfl

theorem Waiting.mailed_answered {ok : Bool} (h : Waiting s k id now entry) :
    Mailed (some (answered entry now ok)) (mails (s.deliver k ok).delivered id s.log) := by
  cases ok with
  | false => exact h.mailed
  | true =>
    have hnow : ∀ time, time ≤ now → ∃ e newest, some (answered entry now true) = some e ∧
      e.state = .failed ∧
        e.lastMailAt = some newest ∧ 0 < newest ∧ time ≤ newest :=
      fun time hle => ⟨_, now, rfl, h.failed, rfl, h.clock, hle⟩
    have hold : ∀ time ∈ mails s.delivered id s.log, time ≤ now := fun time htime =>
      (Nat.le_add_right ..).trans (day_of_due h.mailed h.due time htime)
    obtain ⟨older, -, hsame, hown⟩ := h.mails_own
    intro time htime
    refine hnow time ?_
    rcases hown s.log List.suffix_rfl with hnew | hkept
    · rcases List.mem_cons.mp (hnew ▸ htime) with rfl | htime
      · exact Nat.le_refl _
      · exact hold time (hsame ▸ htime)
    · exact hold time (hkept ▸ htime)

theorem Waiting.spaced {ok : Bool} (h : Waiting s k id now entry) (hi : Invariant before s)
    (hlog : log <:+ s.log) :
    (mails (s.deliver k ok).delivered id log).Pairwise fun later earlier =>
      earlier + mailEveryMs ≤ later := by
  cases ok with
  | false => exact hi.spaced id log hlog
  | true =>
    obtain ⟨older, holder, hsame, hown⟩ := h.mails_own
    rcases hown log hlog with hnew | hkept
    · refine hnew ▸ List.pairwise_cons.mpr ⟨fun time htime => ?_, hi.spaced id older holder⟩
      exact day_of_due h.mailed h.due time (hsame ▸ htime)
    · exact hkept ▸ hi.spaced id log hlog

theorem Waiting.delivered_other {ok : Bool} (h : Waiting s k id now entry) (hc : c ≠ id)
    (hlog : log <:+ s.log) :
    mails (s.deliver k ok).delivered c log = mails s.delivered c log := by
  cases ok with
  | false => rfl
  | true => exact h.mails_other hc hlog

theorem delivered_of_ne {ok : Bool} (h : c ≠ k) : (s.deliver k ok).delivered c = s.delivered c := by
  cases ok with
  | false => rfl
  | true => exact Function.update_of_ne h ..

theorem invariant_answered {ok : Bool} (hi : Invariant before s)
    (hk : s.calls k = some (.failing id now read entry))
    (hothers : ∀ c, c ≠ id → read.certs.get? c = s.stored c) :
    Invariant before (((s.goOn k none).deliver k ok).put read id (answered entry now ok)) := by
  have hw := hi.waiting k id now read entry hk
  have hold : ∀ {c id' now' read' entry'},
    Function.update s.calls k none c = some (.failing id' now' read' entry') →
      (c ≠ k ∧ id' ≠ id) ∧ s.calls c = some (.failing id' now' read' entry') := by
    intro c id' now' read' entry' h
    rcases calls_update h with ⟨-, hnew⟩ | ⟨hne, hc⟩
    · cases hnew
    · refine ⟨⟨hne, ?_⟩, hc⟩
      rintro rfl
      exact hne (hi.alone c k id' now' now read' read entry' entry hc hk)
  have hquiet : ∀ {c}, c ≠ id →
    ¬ Failing (((s.goOn k none).deliver k ok).put read id (answered entry now ok)) c →
      ¬ Failing s c := by
    rintro c hc hnot ⟨j, now', read', entry', hj⟩
    have hne : j ≠ k := by
      rintro rfl
      obtain ⟨rfl, -⟩ := Call.failing.inj (Option.some.inj (hj.symm.trans hk))
      exact hc rfl
    exact hnot ⟨j, now', read', entry', (Function.update_of_ne hne ..).trans hj⟩
  constructor
  case waiting =>
    intro c id' now' read' entry' h
    obtain ⟨⟨hne, hid⟩, hc⟩ := hold h
    have hw' := hi.waiting c id' now' read' entry' hc
    refine ⟨hw'.due, hw'.clock, hw'.failed, (delivered_of_ne hne).trans hw'.unsent, hw'.event, ?_⟩
    exact (hw.delivered_other hid List.suffix_rfl).symm ▸ hw'.mailed
  case alone =>
    intro c c' id' now' now'' read' read'' entry' entry'' h h'
    exact hi.alone c c' id' now' now'' read' read'' entry' entry'' (hold h).2 (hold h').2
  case fresh =>
    intro c hc
    have hne : c ≠ k := by
      rintro rfl
      rw [(hi.fresh c hc).1] at hk
      cases hk
    exact ⟨(Function.update_of_ne hne ..).trans (hi.fresh c hc).1,
      (delivered_of_ne hne).trans (hi.fresh c hc).2⟩
  case listed =>
    intro c hc
    by_cases hid : c = id
    · subst hid
      rw [State.listed, stored_put, if_pos rfl]
      exact (congrArg some planned_answered).trans hw.last_eq.symm
    · rw [State.listed, stored_put, if_neg hid, hothers c hid]
      exact hi.listed c (hquiet hid hc)
  case mailed =>
    intro c hc
    by_cases hid : c = id
    · subst hid
      rw [stored_put, if_pos rfl]
      exact hw.mailed_answered
    · rw [stored_put, if_neg hid, hothers c hid]
      exact (hw.delivered_other hid List.suffix_rfl).symm ▸ hi.mailed c (hquiet hid hc)
  case spaced =>
    intro c log hlog
    by_cases hid : c = id
    · subst hid
      exact hw.spaced hi hlog
    · exact (hw.delivered_other hid hlog).symm ▸ hi.spaced c log hlog

theorem invariant_list {rows : List Certificate} (hi : Invariant before s)
    (hs : Step m s (.list k rows) t) :
    Invariant before t := by
  simp only [Step, step] at hs
  split at hs
  · next days now read hk =>
    obtain rfl := Option.some.inj hs
    refine invariant_goOn hi hk nofun ?_ fun _ => rfl
    intro id now' read' entry hcall
    split at hcall
    · cases hcall
    · cases hcall
  · cases hs

theorem invariant_answer {ok : Bool} (hi : Invariant before s) (hok : Undisturbed s (.answer k ok))
    (hs : Step m s (.answer k ok) t) : Invariant before t := by
  simp only [Step, step] at hs
  split at hs
  · next id now read entry hk =>
    obtain rfl := Option.some.inj hs
    exact invariant_answered hi hk (hok.1 id now read entry hk)
  · next hk =>
    obtain rfl := Option.some.inj hs
    exact invariant_goOn hi hk nofun nofun fun _ => rfl
  · next now read hk =>
    obtain rfl := Option.some.inj hs
    refine invariant_goOn hi hk nofun nofun fun c => ?_
    cases ok with
    | false => rfl
    | true => exact hok.2 now read hk rfl c
  · cases hs

theorem invariant_step (hs : Step m s a t) (hok : Undisturbed s a) (hi : Invariant before s) :
    Invariant before t := by
  cases a with
  | onFailure => exact invariant_onFailure hi hok.1 hok.2 hs
  | onSuccess => exact invariant_onSuccess hi hok hs
  | forget => exact invariant_forget hi hok hs
  | checkExpiring => exact invariant_checkExpiring hi hs
  | list => exact invariant_list hi hs
  | answer => exact invariant_answer hi hok hs

/-- In every run whose calls leave the waiting ones alone no failure is lost or comes back, and the
mails are spaced. -/
theorem kept_of_run (h : Run (Guarded (Step m) Undisturbed) (initial file) acts s) :
    Kept (initial file).listed s := by
  have hi : Invariant (initial file).listed s := by
    refine h.guarded_invariant ?_ invariant_initial
    intro s a t hs hok hi
    exact invariant_step hs hok hi
  exact hi.kept

/-- Days of a day's length since 1970, and no dates. -/
def sampleMoment : Moment := ⟨fun now => toString (now / mailEveryMs), fun _ => 0⟩

def web : Certificate := ⟨1, "web", none, "letsencrypt", none⟩

/-- The second failure of a certificate comes when the mail about the first is through. -/
theorem kept_of_run_sample : ∃ s, Kept (initial none).listed s ∧ s.listed 1 = some (2, 9000) := by
  let sent := (initial none).start (.failure 1 1 5000 1000 true)
    (some (.failing 1 1000 (readState none) (failedEntry web "timeout" 1 5000 1000 none)))
  have hquiet : ¬ Failing (((sent.goOn 0 none).deliver 0 true).put (readState none) 1
      (answered (failedEntry web "timeout" 1 5000 1000 none) 1000 true)) 1 := by
    rintro ⟨k, now, read, entry, hk⟩
    rcases calls_update hk with ⟨-, hnew⟩ | ⟨hne, hold⟩
    · cases hnew
    · rcases calls_update hold with ⟨hzero, -⟩ | ⟨-, hold⟩
      · exact hne hzero
      · cases hold
  obtain ⟨s, hrun, hlisted⟩ : ∃ s, Run (Guarded (Step sampleMoment) Undisturbed) (initial none)
      [.onFailure web "timeout" 1 5000 1000, .answer 0 true, .onFailure web "timeout" 2 9000 5000]
        s ∧
      s.listed 1 = some (2, 9000) := by
    refine ⟨_,
      .cons (t := sent) ⟨rfl, nofun, by decide⟩
        (.cons ⟨rfl, ?_, nofun⟩ (.cons ⟨rfl, hquiet, by decide⟩ (.nil _))), rfl⟩
    rintro id now read entry hcall c -
    cases hcall
    rfl
  exact ⟨s, kept_of_run hrun, hlisted⟩

/-- A certificate is renewed by hand while the mail about its failure is sent: the answer brings the
failure back. -/
theorem renewed_listed_again :
    ¬ ∀ (m : Moment) (file : Option StateFile) (acts : List Act) (s : State),
    Run (Step m) (initial file) acts s → Kept (initial file).listed s := by
  intro h
  have hkept :=
    h sampleMoment none [.onFailure web "timeout" 1 5000 1000, .onSuccess 1, .answer 0 true] _
    (.cons rfl (.cons rfl (.cons rfl (.nil _))))
  refine absurd (hkept.1 (fun k => ?_) 1) (by decide)
  by_cases hzero : k = 0
  · subst hzero
    rfl
  by_cases hone : k = 1
  · subst hone
    rfl
  · exact (Function.update_of_ne hzero ..).trans
      ((Function.update_of_ne hone ..).trans (Function.update_of_ne hzero ..))

end FloppyGuard.Certificates.RenewalAlerts
