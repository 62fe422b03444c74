import FloppyGuard.Lib.Run
import FloppyGuard.Lib.Table
import Mathlib.Data.List.Count
import Mathlib.Tactic.Linarith

/-! `rate-limit.js`: the hits of a client in a time window, counted in a table that all processes
share. Between the two statements of a request, other requests and clean-ups can run. -/
namespace FloppyGuard.Accounts.RateLimit

/-- The options, with their defaults. -/
structure Limiter where
  windowMs : ℕ := 15 * 60 * 1000
  max : ℕ := 15
  bucket : String := "default"
deriving DecidableEq

namespace Limiter

variable (l : Limiter)

/-- `${bucket}:` -/
def start : List Char := l.bucket.toList ++ [':']

def key (client : String) : List Char := l.start ++ client.toList

def windowKey (now : ℕ) : ℕ := now / l.windowMs

end Limiter

structure Request where
  ip : Option String
  remoteAddress : Option String

/-- `req.ip || req.connection?.remoteAddress || "unknown"` -/
def Request.client (req : Request) : String :=
  ((req.ip.filter (· ≠ "")).or (req.remoteAddress.filter (· ≠ ""))).getD "unknown"

/-- A request whose hit is counted; `time` is when its window was computed. -/
structure Call where
  limiter : Limiter
  client : String
  time : ℕ
deriving DecidableEq

def Call.windowKey (c : Call) : ℕ := c.limiter.windowKey c.time

/-- The headers of a response; with `retryAfter` its status is 429, and without it the request goes
on. -/
structure Answer where
  limit : ℕ
  remaining : ℕ
  retryAfter : Option ℤ
deriving DecidableEq

/-- `row?.count || 1` -/
def countOf : Option ℕ → ℕ
  | none | some 0 => 1
  | some n => n

/-- `Math.ceil((windowEnd - now) / 1000)` -/
def secondsUntil (windowEnd now : ℕ) : ℤ := -(((now : ℤ) - windowEnd) / 1000)

def Call.answer (c : Call) (row : Option ℕ) (now : ℕ) : Answer where
  limit := c.limiter.max
  remaining := c.limiter.max - countOf row
  retryAfter :=
    if c.limiter.max < countOf row then
      some (secondsUntil ((c.windowKey + 1) * c.limiter.windowMs) now) else none

abbrev Hits := Table (List Char × ℕ) ℕ

/-- `INSERT … ON CONFLICT(ip, window_key) DO UPDATE SET count = count + 1` -/
def upsert (hits : Hits) (key : List Char) (windowKey : ℕ) : Hits :=
  hits.set (key, windowKey) ((hits.get? (key, windowKey)).elim 1 (· + 1))

/-- `DELETE … WHERE substr(ip, 1, ?) = ? AND window_key < ?` -/
def cleanup (hits : Hits) (l : Limiter) (now : ℕ) : Hits :=
  hits.filterMap fun k n => if k.1.take l.start.length = l.start ∧ k.2 < l.windowKey now - 1 then
    none else some n

/-- The limiters of a server. No two share a bucket. -/
structure Limiters where
  all : List Limiter
  buckets : ∀ l ∈ all, ∀ l' ∈ all, l.bucket = l'.bucket → l = l'
  plain : ∀ l ∈ all, ':' ∉ l.bucket.toList
  positive : ∀ l ∈ all, 0 < l.windowMs

/-- The limiters of the routes. -/
def routeLimiters : Limiters where
  all :=
    [{ windowMs := 15 * 60 * 1000, max := 30, bucket := "sso" },
      { windowMs := 10 * 60 * 1000, max := 6, bucket := "geo-filter-refresh" },
      { windowMs := 15 * 60 * 1000, max := 10, bucket := "2fa" },
      { windowMs := 15 * 60 * 1000, max := 15, bucket := "login" },
      { windowMs := 10 * 60 * 1000, max := 10, bucket := "notifications-test" },
      { windowMs := 10 * 60 * 1000, max := 20, bucket := "cloudflare-test" },
      { windowMs := 5 * 60 * 1000, max := 20, bucket := "oidc-test" },
      { windowMs := 15 * 60 * 1000, max := 10, bucket := "agent" }]
  buckets := by decide
  plain := by decide
  positive := by decide

/-- `pending`: calls between their statements. `received`, `answered` and `cleaned` record what has
happened: the hits counted, the answers with their times, and the windows in which the limiters were
cleaned. -/
structure State where
  hits : Hits
  pending : List Call
  received : List Call
  answered : List (Call × ℕ × Answer)
  cleaned : List (Limiter × ℕ)

namespace State

variable (s : State)

/-- The calls that went on. -/
def passed : List Call := (s.answered.filter fun p => p.2.2.retryAfter = none).map Prod.fst

def receive (c : Call) : State :=
  { s with
    hits := upsert s.hits (c.limiter.key c.client) c.windowKey
    pending := c :: s.pending
    received := c :: s.received }

def answer (c : Call) (now : ℕ) : State :=
  { s with
    pending := s.pending.erase c
    answered := (c, now, c.answer (s.hits.get? (c.limiter.key c.client, c.windowKey)) now) ::
      s.answered }

def clean (l : Limiter) (now : ℕ) : State :=
  { s with hits := cleanup s.hits l now, cleaned := (l, l.windowKey now) :: s.cleaned }

end State

inductive Act
  | request (l : Limiter) (req : Request) (now : ℕ)
  | answer (c : Call) (now : ℕ)
  | cleanup (l : Limiter) (now : ℕ)
  /-- the process of a call ends before its answer -/
  | lost (c : Call)

def step (ls : Limiters) (s : State) : Act → Option State
  | .request l req now => if l ∈ ls.all then some (s.receive ⟨l, req.client, now⟩) else none
  | .answer c now => if c ∈ s.pending then some (s.answer c now) else none
  | .cleanup l now => if l ∈ ls.all then some (s.clean l now) else none
  | .lost c => if c ∈ s.pending then some { s with pending := s.pending.erase c } else none

abbrev Step (ls : Limiters) (s : State) (a : Act) (t : State) : Prop := step ls s a = some t

def initial : State := ⟨.empty, [], [], [], []⟩

/-- No clock is a whole window behind a clean-up of the limiter, and no call waits that long for its
answer. -/
def Prompt (s : State) : Act → Prop
  | .request l _ now => ∀ p ∈ s.cleaned, p.1 = l → p.2 ≤ l.windowKey now + 1
  | .cleanup l now => ∀ c ∈ s.pending, c.limiter = l → l.windowKey now ≤ c.windowKey + 1
  | _ => True

instance (s : State) : ∀ a, Decidable (Prompt s a)
  | .request .. | .cleanup .. => inferInstanceAs (Decidable (∀ _ ∈ _, _))
  | .answer .. | .lost _ => inferInstanceAs (Decidable True)

/-- The calls of one client to one limiter in one window. -/
def same (l : Limiter) (client : String) (w : ℕ) (c : Call) : Bool :=
  c.limiter = l ∧ c.client = client ∧ c.windowKey = w

theorem same_iff {l : Limiter} {client : String} {w : ℕ} {c : Call} :
    same l client w c = true ↔ c.limiter = l ∧ c.client = client ∧ c.windowKey = w := by
  simp [same]

variable {ls : Limiters} {s t : State} {a : Act} {xs : List Act} {l l' : Limiter}
  {client client' : String} {w w' now : ℕ}
  {c : Call}

/-! Keys of different buckets are apart, and a clean-up keeps to its bucket. -/

theorem start_isPrefix (hl : ':' ∉ l.bucket.toList) (hl' : ':' ∉ l'.bucket.toList)
    (h : l.start <+: l'.start ++ client.toList) : l.bucket = l'.bucket := by
  have hfront : ∀ (k : Limiter), ':' ∉ k.bucket.toList → ∀ cs : List Char,
      (k.start ++ cs).takeWhile (· ≠ ':') = k.bucket.toList := by
    intro k hk cs
    have hkeep : ∀ ch ∈ k.bucket.toList, decide (ch ≠ ':') = true := by
      intro ch hch
      exact decide_eq_true fun he => hk (he ▸ hch)
    rw [Limiter.start, List.append_assoc, List.takeWhile_append_of_pos hkeep]
    simp
  obtain ⟨cs, hcs⟩ := h
  have hbucket := hfront l hl cs
  rw [hcs, hfront l' hl'] at hbucket
  exact String.toList_inj.mp hbucket.symm

theorem key_inj (hl : ':' ∉ l.bucket.toList) (hl' : ':' ∉ l'.bucket.toList)
    (h : l.key client = l'.key client') :
    l.bucket = l'.bucket ∧ client = client' := by
  have hstart : l.start <+: l'.start ++ client'.toList := ⟨client.toList, h⟩
  have hbucket := start_isPrefix hl hl' hstart
  refine ⟨hbucket, ?_⟩
  rw [Limiter.key, Limiter.key, Limiter.start, Limiter.start, hbucket] at h
  exact String.toList_inj.mp (List.append_cancel_left h)

theorem key_eq_iff (hl : l ∈ ls.all) (hl' : l' ∈ ls.all) :
    l.key client = l'.key client' ↔ l = l' ∧ client = client' := by
  constructor
  · intro h
    obtain ⟨hbucket, hclient⟩ := key_inj (ls.plain l hl) (ls.plain l' hl') h
    exact ⟨ls.buckets l hl l' hl' hbucket, hclient⟩
  · rintro ⟨rfl, rfl⟩
    rfl

theorem take_key (hl : l ∈ ls.all) (hl' : l' ∈ ls.all) :
    (l'.key client).take l.start.length = l.start ↔ l = l' := by
  constructor
  · intro h
    have hprefix : l.start <+: l'.start ++ client.toList := h ▸ List.take_prefix _ _
    exact ls.buckets l hl l' hl' (start_isPrefix (ls.plain l hl) (ls.plain l' hl') hprefix)
  · rintro rfl
    exact List.take_left' rfl

/-! The table, hit by hit. -/

/-- The count of a client in a window, 0 if there is no row. -/
def State.hitsOf (s : State) (l : Limiter) (client : String) (w : ℕ) : ℕ :=
  (s.hits.get? (l.key client, w)).getD 0

theorem hitsOf_receive (hc : c.limiter ∈ ls.all) (hl : l ∈ ls.all) :
    (s.receive c).hitsOf l client w = s.hitsOf l client w + if same l client w c then 1 else 0 := by
  rw [State.hitsOf, State.receive, upsert, Table.get?_set]
  by_cases h : same l client w c
  · obtain ⟨rfl, rfl, rfl⟩ := same_iff.mp h
    rw [if_pos rfl, if_pos h, State.hitsOf]
    cases s.hits.get? (c.limiter.key c.client, c.windowKey) with
    | none => rfl
    | some n => rfl
  · have hne : (l.key client, w) ≠ (c.limiter.key c.client, c.windowKey) := by
      intro he
      obtain ⟨hkey, hw⟩ := Prod.mk.inj he
      obtain ⟨hlim, hclient⟩ := (key_eq_iff hl hc).mp hkey
      exact h (same_iff.mpr ⟨hlim.symm, hclient.symm, hw.symm⟩)
    rw [if_neg hne, if_neg h, State.hitsOf, Nat.add_zero]

theorem hitsOf_clean (hl' : l' ∈ ls.all) (hl : l ∈ ls.all) :
    (s.clean l' now).hitsOf l client w = if l' = l ∧ w < l'.windowKey now - 1 then 0
    else s.hitsOf l client w := by
  rw [State.hitsOf, State.clean, cleanup, Table.get?_filterMap, State.hitsOf]
  simp only [take_key hl' hl]
  cases s.hits.get? (l.key client, w) with
  | none => simp
  | some n =>
    by_cases h : l' = l ∧ w < l'.windowKey now - 1
    · obtain ⟨rfl, hw⟩ := h
      simp [hw]
    · simp [h]

/-! A refusal, in any run: the client has sent too many requests in the window. -/

/-- The table never counts more than was received, and every answer that refuses was right to. -/
structure Fair (ls : Limiters) (s : State) : Prop where
  known : ∀ c ∈ s.pending, c ∈ s.received ∧ c.limiter ∈ ls.all
  counted : ∀ l ∈ ls.all, ∀ client w, s.hitsOf l client w ≤ s.received.countP (same l client w)
  refused : ∀ c now ans, (c, now, ans) ∈ s.answered → c.limiter ∈ ls.all ∧ ∀ seconds,
    ans.retryAfter = some seconds →
    c.limiter.max < s.received.countP (same c.limiter c.client c.windowKey) ∧
      seconds = secondsUntil ((c.windowKey + 1) * c.limiter.windowMs) now

theorem fair_initial : Fair ls initial where
  known := by simp [initial]
  counted := by simp [initial, State.hitsOf]
  refused := by simp [initial]

theorem countP_receive : (s.receive c).received.countP (same l client w) =
    s.received.countP (same l client w) + if same l client w c then 1 else 0 := List.countP_cons

/-- A call that is pending has been received. -/
theorem Fair.one_le (h : Fair ls s) (hc : c ∈ s.pending) :
    1 ≤ s.received.countP (same c.limiter c.client c.windowKey) :=
  List.countP_pos_iff.mpr ⟨c, (h.known c hc).1, same_iff.mpr ⟨rfl, rfl, rfl⟩⟩

theorem countOf_eq (row : Option ℕ) : countOf row = Nat.max (row.getD 0) 1 := by
  cases row with
  | none => rfl
  | some n =>
    cases n with
    | zero => rfl
    | succ n => simp [countOf]

theorem step_fair (hs : Step ls s a t) (h : Fair ls s) : Fair ls t := by
  cases a with
  | request l req now =>
    simp only [Step, step, Option.ite_none_right_eq_some, Option.some.injEq] at hs
    obtain ⟨hl, rfl⟩ := hs
    refine ⟨?_, ?_, ?_⟩
    · intro c hc
      rcases List.mem_cons.mp hc with rfl | hc
      · exact ⟨List.mem_cons_self, hl⟩
      · exact ⟨List.mem_cons_of_mem _ (h.known c hc).1, (h.known c hc).2⟩
    · intro l' hl' client w
      rw [hitsOf_receive hl hl', countP_receive]
      exact Nat.add_le_add_right (h.counted l' hl' client w) _
    · intro c now' ans hc
      obtain ⟨hlim, hrefused⟩ := h.refused c now' ans hc
      refine ⟨hlim, fun seconds hsec => ?_⟩
      obtain ⟨hmore, hseconds⟩ := hrefused seconds hsec
      exact ⟨hmore.trans_le (countP_receive ▸ Nat.le_add_right _ _), hseconds⟩
  | answer c now =>
    simp only [Step, step, Option.ite_none_right_eq_some, Option.some.injEq] at hs
    obtain ⟨hc, rfl⟩ := hs
    refine ⟨fun c' hc' => h.known c' (List.mem_of_mem_erase hc'), h.counted, ?_⟩
    intro c' now' ans hans
    rcases List.mem_cons.mp hans with he | hans
    · cases he
      refine ⟨(h.known c hc).2, fun seconds hsec => ?_⟩
      simp only [Call.answer, Option.ite_none_right_eq_some, Option.some.injEq] at hsec
      obtain ⟨hmore, rfl⟩ := hsec
      have hhits := h.counted c.limiter (h.known c hc).2 c.client c.windowKey
      have hone := h.one_le hc
      rw [countOf_eq] at hmore
      refine ⟨hmore.trans_le (Nat.max_le.mpr ⟨hhits, hone⟩), rfl⟩
    · exact h.refused c' now' ans hans
  | cleanup l now =>
    simp only [Step, step, Option.ite_none_right_eq_some, Option.some.injEq] at hs
    obtain ⟨hl, rfl⟩ := hs
    refine ⟨h.known, ?_, h.refused⟩
    intro l' hl' client w
    rw [hitsOf_clean hl hl']
    split
    · exact Nat.zero_le _
    · exact h.counted l' hl' client w
  | lost c =>
    simp only [Step, step, Option.ite_none_right_eq_some, Option.some.injEq] at hs
    obtain ⟨-, rfl⟩ := hs
    exact ⟨fun c' hc' => h.known c' (List.mem_of_mem_erase hc'), h.counted, h.refused⟩

/-- After the seconds that an answer tells, its window is over. -/
theorem windowKey_of_secondsUntil (hl : 0 < c.limiter.windowMs) {later : ℕ}
    (h : (now : ℤ) + 1000 * secondsUntil ((c.windowKey + 1) * c.limiter.windowMs) now ≤ later) :
    c.windowKey < c.limiter.windowKey later := by
  have hend : (c.windowKey + 1) * c.limiter.windowMs ≤ later := by
    generalize (c.windowKey + 1) * c.limiter.windowMs = windowEnd at h
    simp only [secondsUntil] at h
    omega
  exact (Nat.le_div_iff_mul_le hl).mpr hend

/-- However requests, answers and clean-ups interleave, a request is refused only if its client has
sent more of them to the limiter in its window than there may be; and the client that comes back
after the seconds it was told is in a later window. -/
theorem refused_only_over (h : Run (Step ls) initial xs s) {ans : Answer} {seconds : ℤ}
    (hans : (c, now, ans) ∈ s.answered)
    (hr : ans.retryAfter = some seconds) :
    c.limiter.max < s.received.countP (same c.limiter c.client c.windowKey) ∧
      ∀ later : ℕ, (now : ℤ) + 1000 * seconds ≤ later →
        c.windowKey < c.limiter.windowKey later := by
  have hfair := h.invariant (I := Fair ls) (fun _ _ _ => step_fair) fair_initial
  obtain ⟨hlim, hrefused⟩ := hfair.refused c now ans hans
  obtain ⟨hmore, rfl⟩ := hrefused seconds hr
  exact ⟨hmore, fun later hlater => windowKey_of_secondsUntil (ls.positive c.limiter hlim) hlater⟩

def refreshLimiter : Limiter :=
  { windowMs := 10 * 60 * 1000, max := 6, bucket := "geo-filter-refresh" }

/-- Seven requests in one window; the last is answered. -/
def sevenRequests : List Act :=
  List.replicate 7 (.request refreshLimiter ⟨some "192.0.2.7", none⟩ 599000) ++
    [.answer ⟨refreshLimiter, "192.0.2.7", 599000⟩ 599500]

theorem refused_seventh : ∃ s, Run (Step routeLimiters) initial sevenRequests s ∧
    6 < s.received.countP (same refreshLimiter "192.0.2.7" 0) ∧
    ∀ later : ℕ, 599500 + 1000 * 1 ≤ (later : ℤ) → 0 < refreshLimiter.windowKey later := by
  have hany : (sevenRequests.foldlM (step routeLimiters) initial).any fun s =>
      ((⟨refreshLimiter, "192.0.2.7", 599000⟩, 599500, ⟨6, 0, some 1⟩) : Call × ℕ × Answer) ∈
        s.answered := by decide +kernel
  obtain ⟨s, hs, hans⟩ := (Option.any_eq_true ..).mp hany
  have hrun := Run.of_foldlM hs
  exact ⟨s, hrun, refused_only_over hrun (of_decide_eq_true hans) rfl⟩

/-! How many go on. A clean-up of rows that no clock comes back to takes nothing away from the count
of a window. -/

/-- No clean-up has taken rows of a window. -/
def Kept (s : State) (l : Limiter) (w : ℕ) : Prop := ∀ p ∈ s.cleaned, p.1 = l → p.2 ≤ w + 1

/-- In a window that is kept the table counts all that was received, and who went on was received
and is not pending. -/
structure Exact (ls : Limiters) (s : State) : Prop where
  counted : ∀ l ∈ ls.all, ∀ client w, Kept s l w →
    s.hitsOf l client w = s.received.countP (same l client w)
  split : ∀ l client w, s.pending.countP (same l client w) + s.passed.countP (same l client w) ≤
    s.received.countP (same l client w)
  kept : ∀ c ∈ s.pending, c.limiter ∈ ls.all ∧ Kept s c.limiter c.windowKey
  atMost : ∀ l client w, s.passed.countP (same l client w) ≤ l.max

theorem exact_initial : Exact ls initial where
  counted := by simp [initial, State.hitsOf]
  split := by simp [initial, State.passed]
  kept := by simp [initial]
  atMost := by simp [initial, State.passed]

theorem countP_erase (l : Limiter) (client : String) (w : ℕ) (hc : c ∈ s.pending) :
    (s.pending.erase c).countP (same l client w) +
    (if same l client w c then 1 else 0) = s.pending.countP (same l client w) := by
  rw [(List.perm_cons_erase hc).countP_eq, List.countP_cons]

theorem passed_answer :
    (s.answer c now).passed.countP (same l client w) = s.passed.countP (same l client w) +
    if (c.answer (s.hits.get? (c.limiter.key c.client, c.windowKey)) now).retryAfter = none ∧
    same l client w c then 1
    else 0 := by
  rw [State.passed, State.passed, State.answer, List.filter_cons]
  by_cases hnone : (c.answer (s.hits.get? (c.limiter.key c.client, c.windowKey)) now).retryAfter =
    none
  · simp [hnone, List.countP_cons]
  · simp [hnone]

/-- A call goes on only while no more than `max` were received. -/
theorem Exact.received_le (h : Exact ls s) (hc : c ∈ s.pending)
    (hnone : (c.answer (s.hits.get? (c.limiter.key c.client, c.windowKey)) now).retryAfter = none) :
    s.received.countP (same c.limiter c.client c.windowKey) ≤ c.limiter.max := by
  obtain ⟨hl, hkept⟩ := h.kept c hc
  rw [← h.counted c.limiter hl c.client c.windowKey hkept, State.hitsOf]
  simp only [Call.answer, ite_eq_right_iff, reduceCtorEq, imp_false, Nat.not_lt, countOf_eq]
    at hnone
  exact (Nat.le_max_left _ 1).trans hnone

theorem step_exact (hs : Step ls s a t) (hok : Prompt s a) (h : Exact ls s) : Exact ls t := by
  cases a with
  | request l req now =>
    simp only [Step, step, Option.ite_none_right_eq_some, Option.some.injEq] at hs
    obtain ⟨hl, rfl⟩ := hs
    refine ⟨?_, ?_, ?_, h.atMost⟩
    · intro l' hl' client w hkept
      rw [hitsOf_receive hl hl', countP_receive, h.counted l' hl' client w hkept]
    · intro l' client w
      have hsplit := h.split l' client w
      have hpending : (s.receive ⟨l, req.client, now⟩).pending.countP (same l' client w) =
          s.pending.countP (same l' client w) + if same l' client w ⟨l, req.client, now⟩ then 1
            else 0 := List.countP_cons
      have hpassed : (s.receive ⟨l, req.client, now⟩).passed = s.passed := rfl
      rw [countP_receive, hpending, hpassed]
      omega
    · intro c hc
      rcases List.mem_cons.mp hc with rfl | hc
      · exact ⟨hl, hok⟩
      · exact h.kept c hc
  | answer c now =>
    simp only [Step, step, Option.ite_none_right_eq_some, Option.some.injEq] at hs
    obtain ⟨hc, rfl⟩ := hs
    have hpending : ∀ l client w, (s.answer c now).pending.countP (same l client w) +
        (if same l client w c then 1 else 0) = s.pending.countP (same l client w) :=
          fun _ _ _ => countP_erase _ _ _ hc
    refine ⟨h.counted, ?_, fun c' hc' => h.kept c' (List.mem_of_mem_erase hc'), ?_⟩
    · intro l client w
      have hsplit := h.split l client w
      have herase := hpending l client w
      have hreceived : (s.answer c now).received = s.received := rfl
      rw [passed_answer, hreceived]
      split
      · next hpass =>
        rw [if_pos hpass.2] at herase
        omega
      · split at herase <;> omega
    · intro l client w
      rw [passed_answer]
      split
      · next hpass =>
        -- the call leaves the pending ones, so all that went on before it are fewer than were
        -- received
        obtain ⟨hnone, hsame⟩ := hpass
        have hsplit := h.split l client w
        have herase := hpending l client w
        rw [if_pos hsame] at herase
        have hmax := h.received_le hc hnone
        obtain ⟨rfl, rfl, rfl⟩ := same_iff.mp hsame
        omega
      · exact h.atMost l client w
  | cleanup l now =>
    simp only [Step, step, Option.ite_none_right_eq_some, Option.some.injEq] at hs
    obtain ⟨hl, rfl⟩ := hs
    refine ⟨?_, h.split, ?_, h.atMost⟩
    · intro l' hl' client w hkept
      have hold : Kept s l' w := fun p hp => hkept p (List.mem_cons_of_mem _ hp)
      rw [hitsOf_clean hl hl', if_neg, h.counted l' hl' client w hold]
      · rfl
      · rintro ⟨rfl, hw⟩
        have hle := hkept (l, l.windowKey now) List.mem_cons_self rfl
        omega
    · intro c hc
      obtain ⟨hlim, hold⟩ := h.kept c hc
      refine ⟨hlim, fun p hp hpl => ?_⟩
      rcases List.mem_cons.mp hp with rfl | hp
      · exact hok c hc hpl.symm
      · exact hold p hp hpl
  | lost c =>
    simp only [Step, step, Option.ite_none_right_eq_some, Option.some.injEq] at hs
    obtain ⟨hc, rfl⟩ := hs
    refine ⟨h.counted, ?_, fun c' hc' => h.kept c' (List.mem_of_mem_erase hc'), h.atMost⟩
    intro l client w
    have hsplit := h.split l client w
    have herase := countP_erase l client w hc
    have hpassed : ({ s with pending := s.pending.erase c } : State).passed = s.passed := rfl
    rw [hpassed]
    simp only
    omega

/-- What is counted twice is counted at most as often as both together. -/
theorem countP_or_le (p q : Call → Bool) (cs : List Call) :
    cs.countP (fun c => p c || q c) ≤ cs.countP p + cs.countP q := by
  induction cs with
  | nil => simp
  | cons c cs ih =>
    rw [List.countP_cons, List.countP_cons, List.countP_cons]
    cases p c <;> cases q c <;> simp <;> omega

/-- A span as long as a window meets two windows at most. -/
theorem same_of_span {start : ℕ} (hl : 0 < l.windowMs) (hc : c.limiter = l)
    (hclient : c.client = client)
    (hge : start ≤ c.time) (hlt : c.time < start + l.windowMs) :
    same l client (l.windowKey start) c || same l client (l.windowKey start + 1) c := by
  have hlow : l.windowKey start ≤ c.windowKey := by
    rw [Call.windowKey, hc]
    exact Nat.div_le_div_right hge
  have hhigh : c.windowKey < l.windowKey start + 2 := by
    rw [Call.windowKey, hc, Limiter.windowKey, Nat.div_lt_iff_lt_mul hl, Limiter.windowKey]
    have hmod := Nat.lt_div_mul_add (a := start) hl
    rw [Nat.add_mul]
    omega
  rw [Bool.or_eq_true, same_iff, same_iff]
  rcases Nat.lt_or_ge (l.windowKey start) c.windowKey with hlater | hsame
  · exact .inr ⟨hc, hclient, by omega⟩
  · exact .inl ⟨hc, hclient, by omega⟩

/-- Over any run of all processes, with restarts: of the requests of a client to a limiter, no more
than `max` of one window go on, and no more than twice as many in any span of the length of a
window. -/
theorem passed_at_most (h : Run (Guarded (Step ls) Prompt) initial xs s) (hl : l ∈ ls.all) :
    (∀ w, s.passed.countP (same l client w) ≤ l.max) ∧
      ∀ start : ℕ, s.passed.countP (fun c => c.limiter = l ∧ c.client = client ∧ start ≤ c.time ∧
        c.time < start + l.windowMs) ≤ 2 * l.max := by
  have hexact := h.guarded_invariant (I := Exact ls) (fun _ _ _ => step_exact) exact_initial
  refine ⟨hexact.atMost l client, fun start => ?_⟩
  have hmono : s.passed.countP (fun c => c.limiter = l ∧ c.client = client ∧ start ≤ c.time ∧
      c.time < start + l.windowMs) ≤
        s.passed.countP fun c => same l client (l.windowKey start) c ||
          same l client (l.windowKey start + 1) c := by
    apply List.countP_mono_left
    intro c _ hc
    obtain ⟨hlim, hclient, hge, hlt⟩ := of_decide_eq_true hc
    exact same_of_span (ls.positive l hl) hlim hclient hge hlt
  have hor :=
    countP_or_le (same l client (l.windowKey start)) (same l client (l.windowKey start + 1))
      s.passed
  have hfirst := hexact.atMost l client (l.windowKey start)
  have hsecond := hexact.atMost l client (l.windowKey start + 1)
  omega

def aliceHit (now : ℕ) : Act := .request refreshLimiter ⟨some "192.0.2.7", none⟩ now

/-- A request whose process is lost, one that is answered, and two windows later a clean-up and
another one. -/
def cleanedRun : List Act :=
  [aliceHit 1000, .lost ⟨refreshLimiter, "192.0.2.7", 1000⟩, aliceHit 2000,
    .answer ⟨refreshLimiter, "192.0.2.7", 2000⟩ 2500, .cleanup refreshLimiter 1200000,
      aliceHit 1200000,
    .answer ⟨refreshLimiter, "192.0.2.7", 1200000⟩ 1200100]

theorem passed_cleanedRun :
    ∃ s, Run (Guarded (Step routeLimiters) Prompt) initial cleanedRun s ∧ s.passed.length = 2 ∧
    (∀ w, s.passed.countP (same refreshLimiter "192.0.2.7" w) ≤ 6) ∧
      ∀ start : ℕ, s.passed.countP (fun c => c.limiter = refreshLimiter ∧
        c.client = "192.0.2.7" ∧ start ≤ c.time ∧ c.time < start + 600000) ≤ 2 * 6 := by
  have hany : (cleanedRun.foldlM (Run.checked (step routeLimiters) Prompt) initial).any fun s =>
      s.passed.length = 2 := by
    decide +kernel
  obtain ⟨s, hs, hlen⟩ := (Option.any_eq_true ..).mp hany
  have hrun := Run.of_checked hs
  exact ⟨s, hrun, of_decide_eq_true hlen, passed_at_most hrun (by decide)⟩

end FloppyGuard.Accounts.RateLimit
