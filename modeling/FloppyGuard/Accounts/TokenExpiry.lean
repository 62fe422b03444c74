import FloppyGuard.Lib.Run
import FloppyGuard.Lib.Text

/-! How long the tokens of a session are valid: a period is read once as a date (`parseDatePeriod`)
and once as a length (`expiresIn` of the signature). -/
namespace FloppyGuard.Accounts.TokenExpiry

open Text

inductive Period
  | y | Q | M | w | d | h | m | s | ms
  deriving DecidableEq

def Period.ofText : List Char → Option Period
  | ['y'] => some .y
  | ['Q'] => some .Q
  | ['M'] => some .M
  | ['w'] => some .w
  | ['d'] => some .d
  | ['h'] => some .h
  | ['m'] => some .m
  | ['s'] => some .s
  | ['m', 's'] => some .ms
  | _ => none

/-- The groups of the pattern. -/
def matchPeriod (expression : String) : Option (ℕ × Period) :=
  let digits := expression.toList.takeWhile Char.isDigit
  if digits = [] then none
  else (Period.ofText (expression.toList.dropWhile Char.isDigit)).map fun unit =>
    (Nat.ofDigitChars 10 digits 0, unit)

/-- How local dates are added to a time in milliseconds. A month has at least 27 days, and the clock
of a zone is set by whole minutes. -/
structure Calendar where
  addDays : ℕ → ℕ → ℕ
  addMonths : ℕ → ℕ → ℕ
  days_minutes : ∀ now n, addDays now n % 60000 = now % 60000
  months_minutes : ∀ now n, addMonths now n % 60000 = now % 60000
  months_zero : ∀ now, addMonths now 0 = now
  months_later : ∀ now n, now + n * (27 * 86400000) ≤ addMonths now n

/-- The last time a date can have. -/
def maxDate : ℕ := 8640000000000000

/-- What the clock says at the places of a call that read it, in their order: where its token is
loaded, for the date of the period, for the cap, against the end of the SSO login, for the time
until then, and for the signature. A login reads it for the date and the signature. -/
structure Clock where
  loaded : ℕ
  date : ℕ
  capped : ℕ
  checked : ℕ
  left : ℕ
  signed : ℕ
  loaded_date : loaded ≤ date
  date_capped : date ≤ capped
  capped_checked : capped ≤ checked
  checked_left : checked ≤ left
  left_signed : left ≤ signed

theorem Clock.ordered (clock : Clock) :
    clock.loaded ≤ clock.date ∧ clock.date ≤ clock.capped ∧ clock.capped ≤ clock.checked ∧
    clock.checked ≤ clock.left ∧ clock.left ≤ clock.signed :=
  ⟨clock.loaded_date, clock.date_capped, clock.capped_checked, clock.checked_left,
    clock.left_signed⟩

/-- From the date on the call reads one second. -/
def Clock.OneSecond (clock : Clock) : Prop := clock.signed / 1000 = clock.date / 1000

variable (cal : Calendar) (now : ℕ) (clock : Clock)

/-- The time a period leads to. -/
def endTime : ℕ × Period → ℕ
  | (n, .y) => cal.addMonths now (12 * n)
  | (n, .Q) => cal.addMonths now (3 * n)
  | (n, .M) => cal.addMonths now n
  | (n, .w) => cal.addDays now (7 * n)
  | (n, .d) => cal.addDays now n
  | (n, .h) => now + n * 3600000
  | (n, .m) => now + n * 60000
  | (n, .s) => now + n * 1000
  | (n, .ms) => now + n

/-- The date, `none` if it is not valid. -/
def endDate (p : ℕ × Period) : Option ℕ :=
  if endTime cal now p ≤ maxDate then some (endTime cal now p) else none

def parseDatePeriod (expression : String) : Option (Option ℕ) :=
  (matchPeriod expression).map (endDate cal now)

/-- The milliseconds of a unit as the signature reads it, without regard to case. -/
def msLength : Period → Option ℕ
  | .y => some 31557600000
  | .Q => none
  | .M => some 60000
  | .w => some 604800000
  | .d => some 86400000
  | .h => some 3600000
  | .m => some 60000
  | .s => some 1000
  | .ms => some 1

def msOf (expression : String) : Option ℕ :=
  if 100 < expression.length then none
  else (matchPeriod expression).bind fun p => (msLength p.2).map (p.1 * ·)

inductive ExpiresIn
  | text (expression : String)
  | seconds (n : ℕ)

/-- The `exp` of a token signed now. -/
def timespan : ExpiresIn → Option ℕ
  | .seconds n => some (now / 1000 + n)
  | .text expression => (msOf expression).map fun milliseconds => now / 1000 + milliseconds / 1000

structure Token where
  iss : String
  id : ℕ
  ssoExp : Option ℕ
  scope : List String
  iat : ℕ
  exp : ℕ
  deriving DecidableEq

def create (iss : String) (id : ℕ) (ssoExp : Option ℕ) (scope : List String)
    (expiresIn : ExpiresIn) : Except String Token :=
  match timespan now expiresIn with
  | none =>
    .error
      ("\"expiresIn\" should be a number of seconds or string representing a timespan eg: " ++
       "\"1d\", \"20h\", 60")
  | some exp => .ok ⟨iss, id, ssoExp, scope, now / 1000, exp⟩

/-- A token and the time reported with it, `none` for a date that is not valid. -/
structure Issued where
  token : Token
  expires : Option ℕ
  deriving DecidableEq

/-- `expiry || "1d"` -/
def orDay : Option String → String
  | none => "1d"
  | some expiry => if expiry = "" then "1d" else expiry

/-- `getTokenFromEmail` behind the password, `verify2FA` behind the code. -/
def fullToken (iss : String) (id : ℕ) (expiry : Option String) : Except String Issued :=
  match parseDatePeriod cal clock.date (orDay expiry) with
  | none => .error ("Invalid expiry time: " ++ orDay expiry)
  | some expires =>
    (create clock.signed iss id none ["user"] (.text (orDay expiry))).map (⟨·, expires⟩)

def unitSeconds : Period → Option ℕ
  | .y => some (365 * 86400)
  | .w => some (7 * 86400)
  | .d => some 86400
  | .h => some 3600
  | .m => some 60
  | _ => none

/-- The seconds of an SSO session. -/
def expirySeconds (value : String) : Option ℕ :=
  let digits := value.toList.takeWhile Char.isDigit
  if 5 < digits.length ∨ digits.head? = some '0' then none
  else (matchPeriod value).bind fun p => (unitSeconds p.2).bind fun unit =>
    if 0 < p.1 * unit ∧ p.1 * unit ≤ 366 * 86400 then some (p.1 * unit) else none

def ssoToken (id : ℕ) (expiry : String) : Except String Issued :=
  match expirySeconds expiry with
  | none => .error ("Ungültige Gültigkeitsdauer: " ++ expiry)
  | some lifetime =>
    let expires := clock.date + lifetime * 1000
    (create clock.signed "oidc" id (some (expires / 1000)) ["user"] (.seconds lifetime)).map
      (⟨·, some expires⟩)

/-- A call for a fresh token: its clock, the period asked for, and what the lookups of the account
say. -/
structure Call where
  clock : Clock
  expiry : Option String
  account : Except String Unit

/-- Thirty days in milliseconds. -/
def maxAge : ℕ := 30 * 24 * 60 * 60 * 1000

/-- The end of the SSO login in a token; zero counts as none. -/
def ssoUntil (token : Token) : Option ℕ := token.ssoExp.filter (· ≠ 0)

/-- The date and the lifetime, cut at the end of the SSO login. -/
def cutAtSso (expiry : String) (expires : Option ℕ) : Option ℕ → Option ℕ × ExpiresIn
  | none => (expires, .text expiry)
  | some until_ =>
    if expires.any (until_ * 1000 < ·) then
      (some (until_ * 1000), .seconds (max 1 ((until_ * 1000 - now) / 1000)))
    else (expires, .text expiry)

def getFreshToken (access : Token) (call : Call) : Except String Issued :=
  if access.exp ≤ call.clock.loaded / 1000 then .error "Token has expired"
  else if access.id = 0 then .error "Existing token contained invalid user data"
  else if "2fa-challenge" ∈ access.scope ∨ "user" ∉ access.scope then .error "Invalid token"
  else
    match call.account with
    | .error e => .error e
    | .ok () =>
      match parseDatePeriod cal call.clock.date (orDay call.expiry) with
      | none => .error ("Invalid expiry time: " ++ orDay call.expiry)
      | some expires =>
        if expires.any (call.clock.capped + maxAge < ·) then
          .error "Token expiry cannot exceed 30 days"
        else if (ssoUntil access).any fun until_ => until_ * 1000 ≤ call.clock.checked + 5000 then
          .error "SSO session expired, please sign in again"
        else
          let cut := cutAtSso call.clock.left (orDay call.expiry) expires (ssoUntil access)
          (create call.clock.signed "api" access.id (ssoUntil access) access.scope cut.2).map
            (⟨·, cut.1⟩)

inductive Login
  /-- a password, and a code behind it where there is one -/
  | password (iss : String) (expiry : Option String)
  /-- the period of the settings -/
  | sso (expiry : String)

def login (id : ℕ) : Login → Except String Issued
  | .password iss expiry => fullToken cal clock iss id expiry
  | .sso expiry => ssoToken clock id expiry

def Step (i : Issued) (c : Call) (j : Issued) : Prop := getFreshToken cal i.token c = .ok j

/-- The reported time is the end of the token, up to a second. -/
def Reported (i : Issued) : Prop :=
  ∃ e, i.expires = some e ∧ e ≤ i.token.exp * 1000 + 1000 ∧ i.token.exp * 1000 ≤ e + 1000

/-- What a token refreshed in a session that an SSO login began (`origin`), or a login without,
should be. -/
structure Refreshed (origin : Option ℕ) (j : Issued) : Prop where
  reported : Reported j
  young : j.token.exp ≤ j.token.iat + 30 * 24 * 60 * 60
  sameOrigin : j.token.ssoExp = origin
  bounded : ∀ until_ ∈ origin, j.token.exp ≤ until_

/-- The two readings of a period are of one length: always for hours, minutes and seconds; for days
and weeks where the clock of the zone is not set in between; for months never but for none of them;
for years where they have 365.25 days each. -/
def SameLength : ℕ × Period → Prop
  | (n, .y) => cal.addMonths now (12 * n) = now + n * 31557600000
  | (_, .Q) => True
  | (n, .M) => n = 0
  | (n, .w) => cal.addDays now (7 * n) = now + n * 604800000
  | (n, .d) => cal.addDays now n = now + n * 86400000
  | (_, .h) => True
  | (_, .m) => True
  | (_, .s) => True
  | (n, .ms) => now % 1000 + n % 1000 ≤ 1000

/-- The period ends at a date there is, and both readings are of one length. -/
def ReadAlike (expiry : Option String) : Prop :=
  ∀ p, matchPeriod (orDay expiry) = some p → endTime cal now p ≤ maxDate ∧ SameLength cal now p

/-- The period ends behind the SSO login, at a date there is. -/
def PastSso (i : Issued) (c : Call) : Prop :=
  ∃ until_ p, ssoUntil i.token = some until_ ∧ matchPeriod (orDay c.expiry) = some p ∧
    until_ * 1000 < endTime cal c.clock.date p ∧ endTime cal c.clock.date p ≤ maxDate

def Sound (i : Issued) (c : Call) : Prop := ReadAlike cal c.clock.date c.expiry ∨ PastSso cal i c

def SoundLogin : Login → Prop
  | .password _ expiry => ReadAlike cal clock.date expiry
  | .sso _ => True

variable {cal now clock} {p : ℕ × Period} {expression : String} {milliseconds : ℕ} {i j t : Issued}
  {c : Call} {cs : List Call}
  {origin : Option ℕ} {l : Login} {id : ℕ}

/-! The two readings. -/

theorem msOf_some (h : msOf expression = some milliseconds) :
    ∃ p, matchPeriod expression = some p ∧ (msLength p.2).map (p.1 * ·) = some milliseconds := by
  unfold msOf at h
  split at h
  · cases h
  · exact Option.bind_eq_some_iff.mp h

/-- A date and a length that differ by a second at most are of one length, and the other way round.
-/
theorem sameLength_iff (h : (msLength p.2).map (p.1 * ·) = some milliseconds) :
    SameLength cal now p ↔ endTime cal now p ≤ (now / 1000 + milliseconds / 1000) * 1000 + 1000 ∧
      (now / 1000 + milliseconds / 1000) * 1000 ≤ endTime cal now p + 1000 := by
  obtain ⟨n, unit⟩ := p
  cases unit with
  | y =>
    obtain rfl : n * 31557600000 = milliseconds := Option.some.inj h
    have hminutes := cal.months_minutes now (12 * n)
    simp only [SameLength, endTime]
    omega
  | Q => cases h
  | M =>
    obtain rfl : n * 60000 = milliseconds := Option.some.inj h
    have hlater := cal.months_later now n
    simp only [SameLength, endTime]
    constructor
    · rintro rfl
      rw [cal.months_zero]
      omega
    · omega
  | w =>
    obtain rfl : n * 604800000 = milliseconds := Option.some.inj h
    have hminutes := cal.days_minutes now (7 * n)
    simp only [SameLength, endTime]
    omega
  | d =>
    obtain rfl : n * 86400000 = milliseconds := Option.some.inj h
    have hminutes := cal.days_minutes now n
    simp only [SameLength, endTime]
    omega
  | h =>
    obtain rfl : n * 3600000 = milliseconds := Option.some.inj h
    simp only [SameLength, endTime, true_iff]
    omega
  | m =>
    obtain rfl : n * 60000 = milliseconds := Option.some.inj h
    simp only [SameLength, endTime, true_iff]
    omega
  | s =>
    obtain rfl : n * 1000 = milliseconds := Option.some.inj h
    simp only [SameLength, endTime, true_iff]
    omega
  | ms =>
    obtain rfl : n * 1 = milliseconds := Option.some.inj h
    simp only [SameLength, endTime]
    omega

/-- A period of one length ends that much later. -/
theorem endTime_of_sameLength (h : (msLength p.2).map (p.1 * ·) = some milliseconds)
    (hsame : SameLength cal now p) :
    endTime cal now p = now + milliseconds := by
  obtain ⟨n, unit⟩ := p
  cases unit with
  | y =>
    obtain rfl := Option.some.inj h
    exact hsame
  | Q => cases h
  | M =>
    obtain rfl := Option.some.inj h
    obtain rfl : n = 0 := hsame
    exact cal.months_zero now
  | w =>
    obtain rfl := Option.some.inj h
    exact hsame
  | d =>
    obtain rfl := Option.some.inj h
    exact hsame
  | h =>
    obtain rfl := Option.some.inj h
    rfl
  | m =>
    obtain rfl := Option.some.inj h
    rfl
  | s =>
    obtain rfl := Option.some.inj h
    rfl
  | ms =>
    obtain rfl := Option.some.inj h
    exact congrArg (now + ·) (Nat.mul_one n).symm

theorem endDate_eq_some {e : ℕ} :
    endDate cal now p = some e ↔ endTime cal now p ≤ maxDate ∧ endTime cal now p = e := by
  unfold endDate
  split
  · next h => simp [h]
  · next h => simp [h]

theorem any_endDate {bound : ℕ} : (endDate cal now p).any (bound < ·) = true ↔
    endTime cal now p ≤ maxDate ∧ bound < endTime cal now p := by
  unfold endDate
  split
  · next h => simp [h]
  · next h => simp [h]

/-- A date is reported right exactly when there is one and both readings are of one length. -/
theorem reported_iff (h : (msLength p.2).map (p.1 * ·) = some milliseconds)
    (hclock : clock.OneSecond)
    (hexp : i.token.exp = clock.signed / 1000 + milliseconds / 1000)
    (hexpires : i.expires = endDate cal clock.date p) :
    Reported i ↔ endTime cal clock.date p ≤ maxDate ∧ SameLength cal clock.date p := by
  rw [sameLength_iff h, Reported, hexp, hexpires, hclock]
  constructor
  · rintro ⟨e, he, hle, hge⟩
    obtain ⟨hvalid, rfl⟩ := endDate_eq_some.mp he
    exact ⟨hvalid, hle, hge⟩
  · rintro ⟨hvalid, hle, hge⟩
    exact ⟨_, endDate_eq_some.mpr ⟨hvalid, rfl⟩, hle, hge⟩

theorem readAlike_iff {expiry : Option String} (h : matchPeriod (orDay expiry) = some p) :
    ReadAlike cal now expiry ↔ endTime cal now p ≤ maxDate ∧ SameLength cal now p := by
  constructor
  · exact fun hall => hall p h
  · intro hp q hq
    obtain rfl := Option.some.inj (h.symm.trans hq)
    exact hp

/-! What is issued. -/

theorem create_ok {iss : String} {sso : Option ℕ} {scope : List String} {expiresIn : ExpiresIn}
    {token : Token}
    (h : create now iss id sso scope expiresIn = .ok token) :
    ∃ exp, timespan now expiresIn = some exp ∧ token = ⟨iss, id, sso, scope, now / 1000, exp⟩ := by
  unfold create at h
  split at h
  · cases h
  · next exp hexp =>
    cases h
    exact ⟨exp, hexp, rfl⟩

theorem issue_ok {x : Except String Token} {expires : Option ℕ} (h : x.map (⟨·, expires⟩) = .ok i) :
    ∃ token, x = .ok token ∧ i = ⟨token, expires⟩ := by
  cases x with
  | error e => cases h
  | ok token =>
    cases h
    exact ⟨token, rfl, rfl⟩

/-- The signature reads the same period, with the lengths of ms. -/
theorem timespan_text {exp : ℕ} (hp : matchPeriod expression = some p)
    (h : timespan now (.text expression) = some exp) :
    ∃ milliseconds, (msLength p.2).map (p.1 * ·) = some milliseconds ∧
      exp = now / 1000 + milliseconds / 1000 := by
  obtain ⟨milliseconds, hms, rfl⟩ := Option.map_eq_some_iff.mp h
  obtain ⟨q, hq, hlength⟩ := msOf_some hms
  obtain rfl := Option.some.inj (hp.symm.trans hq)
  exact ⟨milliseconds, hlength, rfl⟩

theorem fullToken_ok {iss : String} {expiry : Option String}
    (h : fullToken cal clock iss id expiry = .ok i) :
    ∃ p milliseconds, matchPeriod (orDay expiry) = some p ∧
    (msLength p.2).map (p.1 * ·) = some milliseconds ∧
      i = ⟨⟨iss, id, none, ["user"], clock.signed / 1000, clock.signed / 1000 + milliseconds /
        1000⟩,
        endDate cal clock.date p⟩ := by
  unfold fullToken at h
  split at h
  · cases h
  · next expires hexpires =>
    obtain ⟨token, htoken, rfl⟩ := issue_ok h
    obtain ⟨exp, hexp, rfl⟩ := create_ok htoken
    obtain ⟨p, hp, rfl⟩ := Option.map_eq_some_iff.mp hexpires
    obtain ⟨milliseconds, hlength, rfl⟩ := timespan_text hp hexp
    exact ⟨p, milliseconds, hp, hlength, rfl⟩

theorem ssoToken_ok {expiry : String} (h : ssoToken clock id expiry = .ok i) :
    ∃ lifetime, 0 < lifetime ∧
    i = ⟨⟨"oidc", id, some ((clock.date + lifetime * 1000) / 1000), ["user"], clock.signed / 1000,
      clock.signed / 1000 + lifetime⟩, some (clock.date + lifetime * 1000)⟩ := by
  unfold ssoToken at h
  split at h
  · cases h
  · next lifetime hlifetime =>
    obtain ⟨token, htoken, rfl⟩ := issue_ok h
    obtain ⟨exp, hexp, rfl⟩ := create_ok htoken
    cases hexp
    refine ⟨lifetime, ?_, rfl⟩
    unfold expirySeconds at hlifetime
    dsimp only at hlifetime
    split at hlifetime
    · cases hlifetime
    · obtain ⟨p, -, hp⟩ := Option.bind_eq_some_iff.mp hlifetime
      obtain ⟨unit, -, hunit⟩ := Option.bind_eq_some_iff.mp hp
      split at hunit
      · next hpos => exact Option.some.inj hunit ▸ hpos.1
      · cases hunit

/-- What a fresh token is: cut at the end of the SSO login, or as long as the signature reads the
period. -/
theorem getFreshToken_ok (h : Step cal i c j) : ∃ p, matchPeriod (orDay c.expiry) = some p ∧
    (endTime cal c.clock.date p ≤ maxDate → endTime cal c.clock.date p ≤ c.clock.capped + maxAge) ∧
    ((∃ until_, ssoUntil i.token = some until_ ∧ c.clock.checked + 5000 < until_ * 1000 ∧
        until_ * 1000 < endTime cal c.clock.date p ∧ endTime cal c.clock.date p ≤ maxDate ∧
        j = ⟨⟨"api", i.token.id, some until_, i.token.scope, c.clock.signed / 1000,
          c.clock.signed / 1000 + max 1 ((until_ * 1000 - c.clock.left) / 1000)⟩,
          some (until_ * 1000)⟩) ∨
      ∃ milliseconds, (msLength p.2).map (p.1 * ·) = some milliseconds ∧
        (∀ until_ ∈ ssoUntil i.token, endTime cal c.clock.date p ≤ maxDate →
          endTime cal c.clock.date p ≤ until_ * 1000) ∧
        j = ⟨⟨"api", i.token.id, ssoUntil i.token, i.token.scope, c.clock.signed / 1000,
          c.clock.signed / 1000 + milliseconds / 1000⟩, endDate cal c.clock.date p⟩) := by
  unfold Step getFreshToken at h
  split at h
  · cases h
  split at h
  · cases h
  split at h
  · cases h
  split at h
  · cases h
  split at h
  · cases h
  next expires hexpires =>
    obtain ⟨p, hp, rfl⟩ := Option.map_eq_some_iff.mp hexpires
    split at h
    · cases h
    next hcap =>
      split at h
      · cases h
      next hlive =>
        obtain ⟨token, htoken, rfl⟩ := issue_ok h
        obtain ⟨exp, hexp, rfl⟩ := create_ok htoken
        have hwithin : endTime cal c.clock.date p ≤ maxDate →
            endTime cal c.clock.date p ≤ c.clock.capped + maxAge := by
          intro hvalid
          rw [any_endDate] at hcap
          exact not_lt.mp fun hlt => hcap ⟨hvalid, hlt⟩
        refine ⟨p, hp, hwithin, ?_⟩
        cases hsso : ssoUntil i.token with
        | none =>
          right
          rw [hsso] at hexp
          obtain ⟨milliseconds, hlength, rfl⟩ := timespan_text hp hexp
          exact ⟨milliseconds, hlength, by simp, rfl⟩
        | some until_ =>
          rw [hsso] at hexp hlive
          have hlater : c.clock.checked + 5000 < until_ * 1000 := by simpa using hlive
          by_cases hpast : (endDate cal c.clock.date p).any (until_ * 1000 < ·) = true
          · left
            rw [cutAtSso, if_pos hpast] at hexp ⊢
            rw [any_endDate] at hpast
            cases hexp
            exact ⟨until_, rfl, hlater, hpast.2, hpast.1, rfl⟩
          · right
            rw [cutAtSso, if_neg hpast] at hexp ⊢
            rw [any_endDate] at hpast
            obtain ⟨milliseconds, hlength, rfl⟩ := timespan_text hp hexp
            refine ⟨milliseconds, hlength, fun u hu hvalid => ?_, rfl⟩
            obtain rfl := Option.some.inj hu
            exact not_lt.mp fun hlt => hpast ⟨hvalid, hlt⟩

/-! One refresh, and sessions. -/

/-- A token carries the end of the SSO login that began the session. -/
structure Carries (origin : Option ℕ) (i : Issued) : Prop where
  same : i.token.ssoExp = origin
  nonzero : origin ≠ some 0

theorem ssoUntil_of_carries (h : Carries origin i) : ssoUntil i.token = origin := by
  rw [ssoUntil, h.same]
  cases origin with
  | none => rfl
  | some u =>
    have hne : u ≠ 0 := fun hu => h.nonzero (hu ▸ rfl)
    simp [hne]

theorem carries_step (hs : Step cal i c j) (h : Carries origin i) : Carries origin j := by
  have hsso := ssoUntil_of_carries h
  obtain ⟨p, -, -, ⟨u, hu, -, -, -, rfl⟩ | ⟨milliseconds, -, -, rfl⟩⟩ := getFreshToken_ok hs
  · exact ⟨hu.symm.trans hsso, h.nonzero⟩
  · exact ⟨hsso, h.nonzero⟩

theorem refreshed_iff (hclock : c.clock.OneSecond) (hs : Step cal i c j) (h : Carries origin i) :
    Refreshed origin j ↔ Sound cal i c := by
  have hsecond : c.clock.signed / 1000 = c.clock.date / 1000 := hclock
  obtain ⟨-, hcapped, hchecked, hleft, hsigned⟩ := c.clock.ordered
  have hsame := (carries_step hs h).same
  have hsso := ssoUntil_of_carries h
  obtain ⟨p, hp, hwithin, ⟨u, hu, hlater, hpast, hvalid, rfl⟩
      | ⟨milliseconds, hlength, hbefore, rfl⟩⟩ := getFreshToken_ok hs
  · refine iff_of_true ?_ (.inr ⟨u, p, hu, hp, hpast, hvalid⟩)
    have hage := hwithin hvalid
    rw [maxAge] at hage
    refine ⟨⟨u * 1000, rfl, ?_, ?_⟩, ?_, hsame, fun v hv => ?_⟩
    · dsimp only
      omega
    · dsimp only
      omega
    · dsimp only
      omega
    · obtain rfl : u = v := Option.some.inj (hu.symm.trans (hsso.trans hv))
      dsimp only
      omega
  · constructor
    · intro href
      exact .inl ((readAlike_iff hp).mpr ((reported_iff hlength hclock rfl rfl).mp href.reported))
    · intro hsound
      have hread : ReadAlike cal c.clock.date c.expiry := by
        refine hsound.resolve_right ?_
        rintro ⟨u, q, hu, hq, hpast, hvalid⟩
        obtain rfl := Option.some.inj (hp.symm.trans hq)
        exact absurd (hbefore u hu hvalid) (not_le.mpr hpast)
      obtain ⟨hvalid, hsame'⟩ := (readAlike_iff hp).mp hread
      have hend := endTime_of_sameLength hlength hsame'
      have hage := hwithin hvalid
      rw [maxAge] at hage
      refine ⟨(reported_iff hlength hclock rfl rfl).mpr ⟨hvalid, hsame'⟩, ?_, hsame, fun u hu => ?_⟩
      · dsimp only
        omega
      · have hle := hbefore u (hsso.trans hu) hvalid
        dsimp only
        omega

/-- What the token of a login should be: reported right, and of an SSO login with an end that it
keeps. -/
structure Begun (l : Login) (i : Issued) : Prop where
  reported : Reported i
  carries : ∀ expiry, l = .sso expiry → ∃ until_, i.token.ssoExp = some until_
  bounded : ∀ until_ ∈ i.token.ssoExp, i.token.exp ≤ until_

theorem begun_iff (hclock : clock.OneSecond) (h : login cal clock id l = .ok i) :
    (Begun l i ↔ SoundLogin cal clock l) ∧ Carries i.token.ssoExp i := by
  have hsecond : clock.signed / 1000 = clock.date / 1000 := hclock
  cases l with
  | password iss expiry =>
    obtain ⟨p, milliseconds, hp, hlength, rfl⟩ := fullToken_ok h
    refine ⟨⟨fun hb => ?_, fun hs => ?_⟩, rfl, by simp⟩
    · exact (readAlike_iff hp).mpr ((reported_iff hlength hclock rfl rfl).mp hb.reported)
    · exact ⟨(reported_iff hlength hclock rfl rfl).mpr ((readAlike_iff hp).mp hs), by simp, by simp⟩
  | sso expiry =>
    obtain ⟨lifetime, hpos, rfl⟩ := ssoToken_ok h
    refine ⟨iff_of_true ⟨⟨_, rfl, ?_, ?_⟩, fun _ _ => ⟨_, rfl⟩, fun u hu => ?_⟩ trivial, rfl,
      fun hz => ?_⟩
    · dsimp only
      omega
    · dsimp only
      omega
    · obtain rfl := Option.some.inj hu
      dsimp only
      omega
    · have hzero := Option.some.inj hz
      omega

/-- Where each call reads one second, all tokens of a session are what they should be exactly when
its login and each refresh read their periods alike, or end with the SSO login. -/
theorem session_iff (h : login cal clock id l = .ok i) (hclock : clock.OneSecond)
    (hcalls : ∀ c ∈ cs, c.clock.OneSecond) :
    Begun l i ∧ Run (fun a c b => Step cal a c b ∧ Refreshed i.token.ssoExp b) i cs t ↔
      SoundLogin cal clock l ∧ Run (Guarded (Step cal) (Sound cal)) i cs t := by
  obtain ⟨hbegun, hcarries⟩ := begun_iff hclock h
  refine and_congr hbegun (Run.guarded_iff_each carries_step (fun hc => ?_) hcarries)
  exact refreshed_iff (hcalls _ hc)

/-- A calendar without time changes, from a date where the months have thirty days. -/
def thirtyDays : Calendar where
  addDays now n := now + n * 86400000
  addMonths now n := now + n * 2592000000
  days_minutes now n := by omega
  months_minutes now n := by omega
  months_zero now := by omega
  months_later now n := by omega

/-- A call that is done at once. -/
def Clock.still (now : ℕ) : Clock :=
  ⟨now, now, now, now, now, now, le_refl _, le_refl _, le_refl _, le_refl _, le_refl _⟩

/-- A login for an hour. -/
def anHour : Issued := ⟨⟨"api", 1, none, ["user"], 1775001600, 1775005200⟩, some 1775005200500⟩

/-- The clock of the login. -/
def noon : Clock := .still 1775001600500

/-- A refresh a minute later. -/
def aMinuteLater (expiry : String) : Call := ⟨.still 1775001660000, some expiry, .ok ()⟩

theorem login_anHour : login thirtyDays noon 1 (.password "api" (some "1h")) = .ok anHour := by
  decide +kernel

theorem session_iff_hours : Begun (.password "api" (some "1h")) anHour ∧
    Run (fun a c b => Step thirtyDays a c b ∧ Refreshed none b) anHour [aMinuteLater "2d"]
      ⟨⟨"api", 1, none, ["user"], 1775001660, 1775174460⟩, some 1775174460000⟩ ↔
    SoundLogin thirtyDays noon (.password "api" (some "1h")) ∧
      Run (Guarded (Step thirtyDays) (Sound thirtyDays)) anHour [aMinuteLater "2d"]
        ⟨⟨"api", 1, none, ["user"], 1775001660, 1775174460⟩, some 1775174460000⟩ :=
  session_iff login_anHour rfl (by simp [aMinuteLater, Clock.OneSecond, Clock.still])

/-- A period behind the last date passes the cap: the token is valid for 273785 years. -/
theorem cap_passed :
    ¬ ∀ (cal : Calendar) (clock : Clock) (id : ℕ) (l : Login) (i t : Issued) (cs : List Call),
    login cal clock id l = .ok i → Run (Step cal) i cs t →
      Begun l i ∧ Run (fun a c b => Step cal a c b ∧ Refreshed i.token.ssoExp b) i cs t := by
  intro h
  have hstep : Step thirtyDays anHour (aMinuteLater "100000000d")
      ⟨⟨"api", 1, none, ["user"], 1775001660, 8641775001660⟩, none⟩ := by
    unfold Step
    decide +kernel
  obtain ⟨-, hrun⟩ := h thirtyDays noon 1 (.password "api" (some "1h")) anHour _ _ login_anHour
    (.single hstep)
  cases hrun with
  | cons hs hnil =>
    cases hnil
    exact absurd hs.2.young (by decide)

end FloppyGuard.Accounts.TokenExpiry
