import FloppyGuard.GeoFilter.Days
import FloppyGuard.GeoFilter.Lookup
import FloppyGuard.Lib.Run
import FloppyGuard.Lib.Tail

/-! `collect`: the lines of the log, read on by offset and inode and across rotations, and the
counts of the days. -/
namespace FloppyGuard.GeoStats.Collect

open Text GeoFilter Counts

/-! The text of a date. -/

/-- Year, month and day of a day counted from 1970-01-01. -/
def civil (n : ℤ) : ℤ × ℕ × ℕ :=
  let n := n + 719468
  let era := n / 146097
  let doe := (n % 146097).toNat
  let yoe := (doe - doe / 1460 + doe / 36524 - doe / 146096) / 365
  let doy := doe - (365 * yoe + yoe / 4 - yoe / 100)
  let mp := (5 * doy + 2) / 153
  let month := if mp < 10 then mp + 3 else mp - 9
  (yoe + era * 400 + (if month ≤ 2 then 1 else 0), month, doy - (153 * mp + 2) / 5 + 1)

def pad (n : ℕ) : List Char := if n < 10 then '0' :: Nat.toDigits 10 n else Nat.toDigits 10 n

/-- A number of a script, as far as a time goes. -/
inductive Millis
  | nan
  | number (ms : ℤ)
  | infinite

/-- The times that a `Date` can have. -/
def Millis.isDate : Millis → Bool
  | .number ms => -8640000000000000 ≤ ms && ms ≤ 8640000000000000
  | _ => false

/-- `dayKey`, as the text it is. -/
def dayText (z : LocalTime) (t : Millis) : List Char :=
  match t with
  | .number ms =>
    if t.isDate then
      let (y, m, d) := civil (dayKey z ms)
      (toString y).toList ++ '-' :: pad m ++ '-' :: pad d
    else "NaN-NaN-NaN".toList
  | _ => "NaN-NaN-NaN".toList

example : civil 0 = (1970, 1, 1) ∧ civil 20751 = (2026, 10, 25) ∧ civil (-1) = (1969, 12, 31) := by
  decide

/-! Lines. -/

abbrev Bytes := List UInt8

def lineEnd : UInt8 := 10

/-- What the script has from its environment: the time zone, and the functions of the language that
a text goes through. -/
structure World where
  zone : LocalTime
  /-- `Buffer.toString("utf8")`, line by line -/
  decode : Bytes → List Char
  decode_nil : decode [] = []
  /-- `Math.round(Number(msec) * 1000)` -/
  millis : List Char → Millis
  toLowerCase : List Char → List Char

structure Block where
  time : Millis
  ip : List Char
  host : List Char

/-- `net.isIP` -/
def isIP (ip : List Char) : Bool := isIPv4 ip || netIsIPv6 ip

/-- The line as `collect` takes it apart; `none` is skipped. -/
def readBlock (w : World) (line : List Char) : Option Block :=
  let fields := (trim line).splitOn ' '
  let ip := (fields[1]?).getD []
  let host := (fields[2]?).getD []
  match w.millis (fields.headD []) with
  | .nan | .number 0 => none
  | time => if ip = [] || !isIP ip then none
    else some ⟨time, ip, slice 253 (w.toLowerCase (if host = [] then ['?'] else host))⟩

/-! One call. -/

structure LogFile where
  inode : ℕ
  bytes : Bytes

structure Stats where
  inode : Option ℕ
  offset : ℕ
  days : Table (List Char) Day

def maxReadBytes : ℕ := 64 * 1024 * 1024

/-- The chunks of the files, with the statistics that remember how far they were read. -/
def readChunks (log old : Option LogFile) (stats : Stats) : List Bytes × Stats :=
  match log with
  | none => ([], stats)
  | some st =>
    let rotated := stats.inode.any (· ≠ st.inode)
    let rest := if rotated then
        match old.filter fun f => stats.inode = some f.inode with
        | some f => [(Tail.readFrom lineEnd maxReadBytes f.bytes stats.offset).1]
        | none => []
      else []
    let offset := if rotated then 0 else stats.offset
    let offset := if st.bytes.length < offset then 0 else offset
    let (text, stop) := Tail.readFrom lineEnd maxReadBytes st.bytes offset
    (rest ++ [text], { stats with inode := some st.inode, offset := stop })

/-- `countryOf`. A list that cannot be read gives no country. -/
def countryOf (csvText : Option (List Char)) (ip : List Char) : Except String (List Char) :=
  match csvText.map buildLookup with
  | some (.ok lookup) => (lookup ip).map fun cc => cc.getD "ZZ".toList
  | _ => .ok "ZZ".toList

def emptyDay : Day := ⟨.empty, .empty, .empty⟩

def Day.bump (d : Day) (b : Block) (cc : List Char) : Day where
  countries := Counts.bump d.countries cc (.num 1)
  hosts := Counts.bump d.hosts b.host (.num 1)
  ips := Counts.bump d.ips (b.ip ++ ' ' :: cc) (.num 1)

/-- What the loop over the lines has counted. -/
structure Tally where
  days : Table (List Char) Day
  counted : ℕ

def countLine (w : World) (csvText : Option (List Char)) (cutoff : List Char) (t : Tally)
    (line : List Char) :
    Except String Tally :=
  match readBlock w line with
  | none => .ok t
  | some b =>
    let day := dayText w.zone b.time
    if day < cutoff then .ok t
    else do
      let cc ← countryOf csvText b.ip
      return ⟨t.days.set day (Day.bump ((t.days.get? day).getD emptyDay) b cc), t.counted + 1⟩

def cutoffText (w : World) (now : ℤ) : List Char :=
  dayText w.zone (.number (now - retentionDays * day))

/-- `collect`, as long as files can be read and written. -/
def collect (w : World) (csvText : Option (List Char)) (now : ℤ) (log old : Option LogFile)
    (stats : Stats) :
    Except String (Stats × ℕ) := do
  let (chunks, read) := readChunks log old stats
  let cutoff := cutoffText w now
  let lines := chunks.flatMap fun text => (text.splitOn lineEnd).map w.decode
  let tally ← lines.foldlM (countLine w csvText cutoff) ⟨read.days, 0⟩
  return ({ read with
    days := tally.days.filterMap fun day d => if day < cutoff then none else some d.trimmed },
      tally.counted)

/-! Appending, rotating and collecting. -/

/-- A line of the log, without its end. -/
abbrev Line := { bytes : Bytes // lineEnd ∉ bytes }

/-- A well-formed line that a call has read, with the country its list gives. -/
structure Judged where
  day : List Char
  country : List Char
  host : List Char
deriving DecidableEq

/-- The files and the statistics; behind them, for the statements only, what has happened. -/
structure State where
  log : Option LogFile
  old : Option LogFile
  stats : Stats
  /-- the inodes so far -/
  inodes : List ℕ
  /-- since the last call -/
  rotated : Bool
  /-- the lines since the last call, in the rotated log and in the log -/
  unreadOld : List Line
  unread : List Line
  judged : List Judged
  cutoffs : List (List Char)
  thrown : Bool

inductive Act
  /-- the log is opened for the first time -/
  | create (inode : ℕ)
  | append (line : Line)
  /-- a line that still goes to the log that was renamed -/
  | appendOld (line : Line)
  | rotate (inode : ℕ)
  | collect (csvText : Option (List Char)) (now : ℤ)

def LogFile.append (f : LogFile) (line : Line) : LogFile :=
  { f with bytes := f.bytes ++ (line.1 ++ [lineEnd]) }

/-- What a line counts as: nothing if it is malformed. -/
def judge (w : World) (csvText : Option (List Char)) (line : Line) : Option Judged :=
  match (readBlock w (w.decode line.1)).filter (·.time.isDate) with
  | none => none
  | some b =>
    match countryOf csvText b.ip with
    | .ok cc => some ⟨dayText w.zone b.time, cc, b.host⟩
    | .error _ => none

def unreadBytes (lines : List Line) : ℕ := (lines.map fun l => l.1.length + 1).sum

def step (w : World) (s : State) : Act → Option State
  | .create inode =>
    match s.log with
    | none =>
      if inode ∈ s.inodes then none
      else some { s with log := some ⟨inode, []⟩, inodes := inode :: s.inodes }
    | some _ => none
  | .append line =>
    s.log.map fun f => { s with log := some (f.append line), unread := s.unread ++ [line] }
  | .appendOld line =>
    match s.old with
    | some f =>
      if s.rotated then
        some { s with old := some (f.append line), unreadOld := s.unreadOld ++ [line] } else none
    | none => none
  | .rotate inode =>
    match s.log with
    | some f =>
      if s.rotated || inode ∈ s.inodes then none
      else some { s with
        log := some ⟨inode, []⟩
        old := some f
        inodes := inode :: s.inodes
        rotated := true
        unreadOld := s.unread
        unread := [] }
    | none => none
  | .collect csvText now =>
    if maxReadBytes < unreadBytes (s.unreadOld ++ s.unread) then none
    else
      let called := { s with
        rotated := false
        unreadOld := []
        unread := []
        judged := s.judged ++ (s.unreadOld ++ s.unread).filterMap (judge w csvText)
        cutoffs := cutoffText w now :: s.cutoffs }
      match collect w csvText now s.log s.old s.stats with
      | .ok (stats, _) => some { called with stats }
      | .error _ => some { called with thrown := true }

/-! What is to hold. -/

/-- No call so far has found the day too old. -/
def Retained (s : State) (day : List Char) : Prop := ∀ c ∈ s.cutoffs, ¬ day < c

def onDay (s : State) (day : List Char) : List Judged := s.judged.filter (·.day = day)

/-- A number of the stored day, `0` where there is none. -/
def stored (s : State) (object : Day → Object) (day name : List Char) : ℕ :=
  (s.stats.days.get? day).elim 0 fun d => count (object d) name

/-- Every block is counted once, and nothing else. -/
structure Exact (s : State) : Prop where
  returned : s.thrown = false
  countries : ∀ day, Retained s day →
    ∀ cc, stored s Day.countries day cc = (onDay s day).countP (·.country = cc)
  hosts : ∀ day, Retained s day → ((onDay s day).map Judged.host).dedup.length ≤ maxHostsPerDay →
    ∀ host, stored s Day.hosts day host = (onDay s day).countP (·.host = host)
  days : ∀ day ∈ s.stats.days.keys, onDay s day ≠ []

/-- No log has been opened. -/
structure Start (s : State) : Prop where
  log : s.log = none
  stats : s.stats = ⟨none, 0, .empty⟩
  unread : s.unread = []
  unreadOld : s.unreadOld = []
  rotated : s.rotated = false
  judged : s.judged = []
  thrown : s.thrown = false

/-- There is a list, and it can be read. -/
def hasList (csvText : Option (List Char)) : Bool := csvText.any fun csv => (buildLookup csv).isOk

/-- A line that counts has a date, an address in its plain form if there is a list, and a host that
is no name every object has. -/
def Harmless (w : World) (csvText : Option (List Char)) (now : ℤ) (line : Line) : Prop :=
  ∀ b ∈ readBlock w (w.decode line.1), dayText w.zone b.time < cutoffText w now ∨
    b.time.isDate = true ∧ (hasList csvText = true → isPlain b.ip = true) ∧ inherited b.host = none

/-- A line that does not count, or for a day that is over. -/
def Skipped (w : World) (now : ℤ) (line : Line) : Prop :=
  ∀ b ∈ readBlock w (w.decode line.1), dayText w.zone b.time < cutoffText w now

/-- Every new line is harmless, and none that counts is in a log rotated away before a call has seen
a log. -/
def Fine (w : World) (s : State) : Act → Prop
  | .collect csvText now => (∀ line ∈ s.unreadOld ++ s.unread, Harmless w csvText now line) ∧
    (s.stats.inode = none → ∀ line ∈ s.unreadOld, Skipped w now line)
  | _ => True

variable {w : World} {s t : State} {d : Day} {js : List Judged} {j : Judged} {b : Block}
  {cc day cutoff : List Char}
  {csvText : Option (List Char)} {lines : List Line} {line : Line}

/-! The counts of one day. -/

/-- The stored day counts these lines; the hosts as long as they are few enough. -/
structure DayCounts (d : Day) (js : List Judged) : Prop where
  countries : IsCounts d.countries
  country : ∀ cc, count d.countries cc = js.countP (·.country = cc)
  hosts : IsCounts d.hosts
  known : ∀ h ∈ d.hosts.keys, h ∈ js.map Judged.host
  host : (js.map Judged.host).dedup.length ≤ maxHostsPerDay →
    ∀ h, count d.hosts h = js.countP (·.host = h)

theorem dayCounts_empty : DayCounts emptyDay [] :=
  ⟨isCounts_empty, fun _ => rfl, isCounts_empty, nofun, fun _ _ => rfl⟩

theorem length_dedup_le {xs ys : List (List Char)} (h : xs ⊆ ys) :
    xs.dedup.length ≤ ys.dedup.length := by
  rw [← List.card_toFinset, ← List.card_toFinset]
  exact Finset.card_le_card fun x hx => List.mem_toFinset.mpr (h (List.mem_toFinset.mp hx))

theorem DayCounts.bump (h : DayCounts d js) (hcc : inherited cc = none)
    (hhost : inherited b.host = none) (day : List Char) :
    DayCounts (Day.bump d b cc) (js ++ [⟨day, cc, b.host⟩]) := by
  refine ⟨h.countries.bump hcc, fun c => ?_, h.hosts.bump hhost, fun k hk => ?_, fun hfew k => ?_⟩
  · change count (Counts.bump d.countries cc (.num 1)) c = _
    rw [count_bump hcc h.countries.get?, h.country, List.countP_append, List.countP_singleton]
    simp [eq_comm]
  · obtain ⟨v, hv⟩ := Table.mem_keys.mp hk
    change (Counts.bump d.hosts b.host (.num 1)).get? k = some v at hv
    rw [get?_bump hhost h.hosts.get?] at hv
    rw [List.map_append]
    split at hv
    · next he => exact List.mem_append_right _ (he ▸ List.mem_singleton_self _)
    · exact List.mem_append_left _ (h.known k (Table.mem_keys.mpr ⟨v, hv⟩))
  · have hbefore : (js.map Judged.host).dedup.length ≤ maxHostsPerDay := by
      refine (length_dedup_le ?_).trans hfew
      rw [List.map_append]
      exact List.subset_append_left _ _
    change count (Counts.bump d.hosts b.host (.num 1)) k = _
    rw [count_bump hhost h.hosts.get?, h.host hbefore, List.countP_append, List.countP_singleton]
    simp [eq_comm]

theorem DayCounts.trimmed (h : DayCounts d js) : DayCounts d.trimmed js := by
  refine ⟨h.countries, h.country, h.hosts.of_get? fun k v => get?_of_trimMap, fun k hk => ?_,
    fun hfew k => ?_⟩
  · obtain ⟨v, hv⟩ := Table.mem_keys.mp hk
    exact h.known k (Table.mem_keys.mpr ⟨v, get?_of_trimMap hv⟩)
  · have hkeys : d.hosts.keys.length ≤ maxHostsPerDay := by
      have hnodup : d.hosts.keys.dedup = d.hosts.keys := List.dedup_eq_self.mpr d.hosts.nodup
      refine le_trans ?_ hfew
      rw [← hnodup]
      exact length_dedup_le fun k hk => h.known k hk
    change count (trimMap d.hosts maxHostsPerDay) k = _
    rw [trimMap_eq_self hkeys, h.host hfew]

/-! The countries a list gives. -/

theorem inherited_of_length {k : List Char} (h : k.length = 2) : inherited k = none := by
  have hnames : ∀ p ∈ inheritedFunctions, p.1.length ≠ 2 := by decide
  have hlookup : inheritedFunctions.lookup k = none := by
    refine List.lookup_eq_none_iff.mpr fun p hp => ?_
    have hne : k ≠ p.1 := by
      rintro rfl
      exact hnames p hp h
    simpa using hne
  have hproto : k ≠ prototypeName := by
    rintro rfl
    exact absurd h (by decide)
  rw [inherited, if_neg hproto, hlookup]
  rfl

/-- The rows that are read have a code of two letters. -/
theorem readLine_codes {entries entries' : Family → List Entry} {l : List Char}
    (h : readLine entries l = .ok entries')
    (hcodes : ∀ f, ∀ e ∈ entries f, isCountryCode e.country = true) :
    ∀ f, ∀ e ∈ entries' f, isCountryCode e.country = true := by
  unfold readLine at h
  split at h
  · cases h
    exact hcodes
  split at h
  · next start fin cc tail _ =>
    split at h
    · next hcode =>
      obtain ⟨lo, -, h⟩ := Checked.bind_eq_ok.mp h
      obtain ⟨hi, -, h⟩ := Checked.bind_eq_ok.mp h
      cases h
      intro f e he
      by_cases hf : f = familyOf start
      · subst hf
        rw [Function.update_self] at he
        rcases List.mem_append.mp he with he | he
        · exact hcodes _ e he
        · rw [List.mem_singleton.mp he]
          exact hcode
      · rw [Function.update_of_ne hf] at he
        exact hcodes f e he
    · cases h
      exact hcodes
  · cases h
    exact hcodes

theorem inherited_countryOf {ip : List Char} (h : countryOf csvText ip = .ok cc) :
    inherited cc = none := by
  have hzz : inherited "ZZ".toList = none := inherited_of_length rfl
  unfold countryOf at h
  split at h
  · next lookup hcsv =>
    obtain ⟨csv, -, hbuild⟩ := Option.map_eq_some_iff.mp hcsv
    obtain ⟨entries, hentries, hlookup⟩ := Checked.bind_eq_ok.mp hbuild
    have hcodes : ∀ f, ∀ e ∈ entries f, isCountryCode e.country = true :=
      Checked.foldlM_invariant (P := fun entries : Family → List Entry => ∀ f, ∀ e ∈ entries f,
        isCountryCode e.country = true)
        (fun _ _ _ _ => readLine_codes) (fun _ => List.forall_mem_nil _) hentries
    cases hlookup
    obtain ⟨found, hfound, rfl⟩ := Checked.map_eq_ok.mp h
    have hfind : ∀ f n cc, find ((entries f).mergeSort fun a b => decide (a.lo ≤ b.lo)) n =
        some cc → inherited cc = none := by
      intro f n cc hcc
      obtain ⟨e, he, rfl⟩ := Option.map_eq_some_iff.mp hcc
      have hcode := hcodes f e (List.mem_mergeSort.mp (Bisect.mem_of_search he))
      exact inherited_of_length (by simpa using (Bool.and_eq_true_iff.mp hcode).1)
    cases found with
    | none => exact hzz
    | some cc =>
      unfold lookupIn at hfound
      split at hfound
      · obtain ⟨n, -, hn⟩ := Checked.map_eq_ok.mp hfound
        exact hfind _ n cc hn
      split at hfound
      · obtain ⟨n, -, hn⟩ := Checked.map_eq_ok.mp hfound
        exact hfind _ n cc hn
      · cases hfound
  · cases h
    exact hzz

theorem isIP_of_readBlock {line : List Char} (h : readBlock w line = some b) :
    isIP b.ip = true := by
  unfold readBlock at h
  dsimp only at h
  split at h
  · cases h
  · cases h
  · split at h
    · cases h
    · next hip =>
      cases h
      rw [Bool.or_eq_true, not_or] at hip
      simpa using hip.2

/-- A plain address has a country. -/
theorem countryOf_plain {ip : List Char} (hip : isIP ip = true)
    (hplain : hasList csvText = true → isPlain ip = true) :
    ∃ cc, countryOf csvText ip = .ok cc := by
  unfold countryOf
  split
  · next lookup hcsv =>
    obtain ⟨csv, rfl, hbuild⟩ := Option.map_eq_some_iff.mp hcsv
    have hlist : hasList (some csv) = true := by rw [hasList, Option.any_some, hbuild]; rfl
    obtain ⟨entries, -, hlookup⟩ := Checked.bind_eq_ok.mp hbuild
    cases hlookup
    obtain ⟨found, hfound⟩ : ∃ found,
        lookupIn (fun f => (entries f).mergeSort fun a b => decide (a.lo ≤ b.lo)) ip = .ok found :=
          lookupIn_plain hip (hplain hlist)
    rw [hfound]
    exact ⟨_, rfl⟩
  · exact ⟨_, rfl⟩

/-! The loop over the lines. -/

/-- The days `P` are counted from these lines, and no day is stored without one. -/
structure Counted (P : List Char → Prop) (days : Table (List Char) Day) (js : List Judged) :
    Prop where
  counts : ∀ day, P day → DayCounts ((days.get? day).getD emptyDay) (js.filter (·.day = day))
  known : ∀ day ∈ days.keys, js.filter (·.day = day) ≠ []

variable {P : List Char → Prop} {days : Table (List Char) Day} {tally : Tally} {now : ℤ}

/-- A line of another day. -/
theorem Counted.skip (h : Counted P days js) (hj : ¬ P j.day) : Counted P days (js ++ [j]) := by
  constructor
  · intro day hday
    have hne : j.day ≠ day := by
      rintro rfl
      exact hj hday
    rw [List.filter_append, List.filter_singleton, decide_eq_false hne]
    simpa using h.counts day hday
  · intro day hday hnil
    rw [List.filter_append] at hnil
    exact h.known day hday (List.append_eq_nil_iff.mp hnil).1

theorem Counted.add (h : Counted P days js) (hcc : inherited cc = none)
    (hhost : inherited b.host = none) :
    Counted P (days.set day (Day.bump ((days.get? day).getD emptyDay) b cc))
      (js ++ [⟨day, cc, b.host⟩]) := by
  constructor
  · intro day' hday'
    rw [Table.get?_set, List.filter_append, List.filter_singleton]
    by_cases hd : day' = day
    · subst hd
      rw [if_pos rfl, decide_eq_true rfl]
      exact (h.counts day' hday').bump hcc hhost day'
    · rw [if_neg hd, decide_eq_false (Ne.symm hd)]
      simpa using h.counts day' hday'
  · intro day' hday' hnil
    rw [List.filter_append] at hnil
    obtain ⟨hbefore, hnew⟩ := List.append_eq_nil_iff.mp hnil
    obtain ⟨v, hv⟩ := Table.mem_keys.mp hday'
    rw [Table.get?_set] at hv
    split at hv
    · next hd => simp [hd] at hnew
    · exact h.known day' (Table.mem_keys.mpr ⟨v, hv⟩) hbefore

/-- A line is counted as it is judged, if its day is not over. -/
theorem countLine_spec (h : Counted P tally.days js) (hP : ∀ day, P day → ¬ day < cutoffText w now)
    (hline : Harmless w csvText now line) :
    ∃ tally', countLine w csvText (cutoffText w now) tally (w.decode line.1) = .ok tally' ∧
      Counted P tally'.days (js ++ (judge w csvText line).toList) := by
  unfold countLine judge
  cases hb : readBlock w (w.decode line.1) with
  | none => exact ⟨tally, rfl, by simpa using h⟩
  | some b =>
    dsimp only
    by_cases hday : dayText w.zone b.time < cutoffText w now
    · rw [if_pos hday]
      refine ⟨tally, rfl, ?_⟩
      split
      · simpa using h
      next b' hb' =>
      obtain ⟨rfl, -⟩ : b = b' ∧ b'.time.isDate = true := by simpa using hb'
      split
      · exact h.skip fun hp => hP _ hp hday
      · simpa using h
    · rw [if_neg hday]
      obtain ⟨hdate, hplain, hhost⟩ := (hline b hb).resolve_left hday
      rw [Option.filter_some, if_pos hdate]
      dsimp only
      obtain ⟨cc, hcc⟩ := countryOf_plain (isIP_of_readBlock hb) hplain
      rw [hcc]
      exact ⟨_, rfl, h.add (inherited_countryOf hcc) hhost⟩

theorem foldlM_countLine (hP : ∀ day, P day → ¬ day < cutoffText w now)
    (hlines : ∀ line ∈ lines, Harmless w csvText now line)
    (h : Counted P tally.days js) :
    ∃ tally',
    (lines.map fun line => w.decode line.1).foldlM (countLine w csvText (cutoffText w now)) tally =
      .ok tally' ∧
      Counted P tally'.days (js ++ lines.filterMap (judge w csvText)) := by
  induction lines generalizing tally js with
  | nil => exact ⟨tally, rfl, by simpa using h⟩
  | cons line lines ih =>
    obtain ⟨next, hnext, hcounted⟩ := countLine_spec h hP (hlines line List.mem_cons_self)
    obtain ⟨tally', htally, hall⟩ := ih (fun l hl => hlines l (List.mem_cons_of_mem _ hl)) hcounted
    refine ⟨tally', ?_, ?_⟩
    · rw [List.map_cons, List.foldlM_cons]
      exact Checked.bind_eq_ok.mpr ⟨next, hnext, htally⟩
    · rw [List.append_assoc] at hall
      rw [List.filterMap_cons]
      cases hj : judge w csvText line with
      | none => simpa [hj] using hall
      | some j => simpa [hj] using hall

/-- Lines that do not count change nothing. -/
theorem foldlM_skipped {rest : List (List Char)} (hlines : ∀ line ∈ lines, Skipped w now line) :
    ((lines.map fun line => w.decode line.1) ++ rest).foldlM
    (countLine w csvText (cutoffText w now)) tally =
      rest.foldlM (countLine w csvText (cutoffText w now)) tally := by
  induction lines with
  | nil => rfl
  | cons line lines ih =>
    have hskip : countLine w csvText (cutoffText w now) tally (w.decode line.1) = .ok tally := by
      unfold countLine
      cases hb : readBlock w (w.decode line.1) with
      | none => rfl
      | some b => exact if_pos (hlines line List.mem_cons_self b hb)
    rw [List.map_cons, List.cons_append, List.foldlM_cons, hskip]
    exact ih fun l hl => hlines l (List.mem_cons_of_mem _ hl)

/-- Behind the last line end of a chunk there is nothing to count. -/
theorem foldlM_nil {xs ys : List (List Char)} :
    (xs ++ [w.decode []] ++ ys).foldlM (countLine w csvText cutoff) tally = (xs ++ ys).foldlM
    (countLine w csvText cutoff) tally := by
  have hskip : ∀ tally, countLine w csvText cutoff tally (w.decode []) = .ok tally := by
    intro tally
    have hnone : readBlock w (w.decode []) = none := by
      rw [w.decode_nil]
      unfold readBlock
      dsimp only
      split <;> rfl
    rw [countLine, hnone]
  rw [List.append_assoc, List.foldlM_append, List.foldlM_append]
  refine congrArg _ (funext fun tally => ?_)
  rw [List.singleton_append, List.foldlM_cons, hskip]
  rfl

/-! The files. -/

def contentOf (lines : List Line) : Bytes := Tail.content lineEnd (lines.map Subtype.val)

theorem length_contentOf (lines : List Line) : (contentOf lines).length = unreadBytes lines := by
  rw [contentOf, Tail.content, List.length_flatMap, unreadBytes, List.map_map]
  exact congrArg List.sum (List.map_congr_left fun l _ => by simp)

theorem contentOf_concat (lines : List Line) (line : Line) :
    contentOf (lines ++ [line]) = contentOf lines ++ (line.1 ++ [lineEnd]) := by
  rw [contentOf, List.map_append, Tail.content_append]
  rw [List.map_singleton, Tail.content_cons]
  rfl

theorem texts_contentOf (w : World) (lines : List Line) :
    ((contentOf lines).splitOn lineEnd).map w.decode = (lines.map fun line => w.decode line.1) ++
    [w.decode []] := by
  have hplain : ∀ l ∈ lines.map Subtype.val, lineEnd ∉ l := by
    intro l hl
    obtain ⟨line, -, rfl⟩ := List.mem_map.mp hl
    exact line.2
  rw [contentOf, Tail.splitOn_content hplain, List.map_append, List.map_map]
  rfl

theorem readFrom_contentOf (before : Bytes) (h : unreadBytes lines ≤ maxReadBytes) :
    Tail.readFrom lineEnd maxReadBytes (before ++ contentOf lines) before.length =
      (contentOf lines, (before ++ contentOf lines).length) :=
  Tail.readFrom_content ((length_contentOf lines).trans_le h)

/-- Where the statistics stand in the files. -/
inductive Files (s : State) : Prop
  | closed (hlog : s.log = none) (hold : s.unreadOld = []) (hunread : s.unread = [])
      (hrotated : s.rotated = false)
      (hstats : s.stats.inode = none ∧ s.stats.offset = 0)
  | current (f : LogFile) (before : Bytes) (hlog : s.log = some f) (hknown : f.inode ∈ s.inodes)
      (hrotated : s.rotated = false)
      (hold : s.unreadOld = []) (hbytes : f.bytes = before ++ contentOf s.unread)
        (hoffset : before.length = s.stats.offset)
      (hinode : s.stats.inode = none ∧ s.stats.offset = 0 ∨ s.stats.inode = some f.inode)
  /-- the first log was rotated away before a call saw it -/
  | unseen (f : LogFile) (hlog : s.log = some f) (hknown : f.inode ∈ s.inodes)
      (hrotated : s.rotated = true)
      (hbytes : f.bytes = contentOf s.unread) (hstats : s.stats.inode = none ∧ s.stats.offset = 0)
  | rotated (f g : LogFile) (before : Bytes) (hlog : s.log = some f) (hknown : f.inode ∈ s.inodes)
      (hrotated : s.rotated = true)
      (hbytes : f.bytes = contentOf s.unread) (hold : s.old = some g)
        (hinode : s.stats.inode = some g.inode)
      (hne : f.inode ≠ g.inode) (hrest : g.bytes = before ++ contentOf s.unreadOld)
        (hoffset : before.length = s.stats.offset)

/-- A log is read from an offset up to its end. -/
theorem readChunks_log {f : LogFile} {old : Option LogFile} {stats : Stats} (before : Bytes)
    (hroom : unreadBytes lines ≤ maxReadBytes) (hbytes : f.bytes = before ++ contentOf lines)
    (hoffset : before.length = stats.offset)
    (hinode : stats.inode = none ∨ stats.inode = some f.inode) :
    readChunks (some f) old stats =
      ([contentOf lines], { stats with inode := some f.inode, offset := f.bytes.length }) := by
  have hrotated : stats.inode.any (· ≠ f.inode) = false := by
    rcases hinode with h | h <;> simp [h]
  have hwithin : ¬ f.bytes.length < stats.offset := by
    rw [hbytes, List.length_append]
    omega
  unfold readChunks
  simp only [hrotated, Bool.false_eq_true, if_false, if_neg hwithin, List.nil_append]
  rw [hbytes, ← hoffset, readFrom_contentOf before hroom]

/-- Of two logs the rest of the old one is read, and the new one from its start. -/
theorem readChunks_rotated {f g : LogFile} {stats : Stats} {before : Bytes} {rest : List Line}
    (hroom : unreadBytes (rest ++ lines) ≤ maxReadBytes) (hbytes : f.bytes = contentOf lines)
    (hinode : stats.inode = some g.inode) (hne : f.inode ≠ g.inode)
    (hrest : g.bytes = before ++ contentOf rest)
    (hoffset : before.length = stats.offset) :
    readChunks (some f) (some g) stats =
      ([contentOf rest, contentOf lines],
        { stats with inode := some f.inode, offset := f.bytes.length }) := by
  have hsum : unreadBytes (rest ++ lines) = unreadBytes rest + unreadBytes lines := by
    rw [unreadBytes, List.map_append, List.sum_append]
    rfl
  have hrotated : stats.inode.any (· ≠ f.inode) = true := by
    rw [hinode]
    simpa using hne.symm
  have hfound : (some g).filter (fun f => stats.inode = some f.inode) = some g := by simp [hinode]
  have hnew : Tail.readFrom lineEnd maxReadBytes (contentOf lines) 0 =
      (contentOf lines, (contentOf lines).length) :=
    readFrom_contentOf [] (by omega)
  unfold readChunks
  simp only [hrotated, if_true, hfound, Nat.not_lt_zero, if_false]
  rw [hrest, ← hoffset, readFrom_contentOf before (by omega), hbytes, hnew]
  rfl

/-- The state a call leaves, but for what it has counted. -/
def Files.after (s : State) (read : Stats) : Prop :=
  ∀ days judged cutoffs, Files { s with
    stats := { read with days }, rotated := false, unreadOld := [], unread := [], judged, cutoffs }

theorem files_after {f : LogFile} {stats : Stats} (hlog : s.log = some f)
    (hknown : f.inode ∈ s.inodes) :
    Files.after s { stats with inode := some f.inode, offset := f.bytes.length } := by
  intro days judged cutoffs
  refine .current f f.bytes hlog hknown rfl rfl ?_ rfl (.inr rfl)
  rw [contentOf, List.map_nil, Tail.content, List.flatMap_nil, List.append_nil]

/-- The lines of the chunks, as the loop goes over them. -/
def textsOf (w : World) (chunks : List Bytes) : List (List Char) :=
  chunks.flatMap fun text => (text.splitOn lineEnd).map w.decode

theorem foldlM_chunk {rest : List (List Char)} :
    (textsOf w [contentOf lines] ++ rest).foldlM (countLine w csvText cutoff) tally =
      ((lines.map fun line => w.decode line.1) ++ rest).foldlM
      (countLine w csvText cutoff) tally := by
  rw [textsOf, List.flatMap_singleton, texts_contentOf]
  exact foldlM_nil

/-- A call reads the new lines; those of a log that none has seen do not count. -/
theorem readChunks_spec (csvText : Option (List Char)) (h : Files s)
    (hroom : unreadBytes (s.unreadOld ++ s.unread) ≤ maxReadBytes)
    (hunseen : s.stats.inode = none → ∀ line ∈ s.unreadOld, Skipped w now line) :
    ∃ chunks read, readChunks s.log s.old s.stats = (chunks, read) ∧ read.days = s.stats.days ∧
    Files.after s read ∧
      ∀ tally, (textsOf w chunks).foldlM (countLine w csvText (cutoffText w now)) tally =
        ((s.unreadOld ++ s.unread).map fun line => w.decode line.1).foldlM
        (countLine w csvText (cutoffText w now)) tally := by
  have hsum : unreadBytes (s.unreadOld ++ s.unread) = unreadBytes s.unreadOld +
      unreadBytes s.unread := by
    rw [unreadBytes, List.map_append, List.sum_append]
    rfl
  have hone : ∀ tally,
    (textsOf w [contentOf s.unread]).foldlM (countLine w csvText (cutoffText w now)) tally =
      (s.unread.map fun line => w.decode line.1).foldlM (countLine w csvText (cutoffText w now))
        tally := by
    intro tally
    have hchunk : (textsOf w [contentOf s.unread] ++ []).foldlM
      (countLine w csvText (cutoffText w now)) tally =
        ((s.unread.map fun line : Line => w.decode line.1) ++ []).foldlM
          (countLine w csvText (cutoffText w now)) tally := foldlM_chunk
    rwa [List.append_nil, List.append_nil] at hchunk
  cases h with
  | closed hlog hold hunread hrotated hstats =>
    refine ⟨[], s.stats, by rw [hlog]; rfl, rfl,
      fun days judged cutoffs => .closed hlog rfl rfl rfl hstats, fun tally => ?_⟩
    rw [hold, hunread]
    rfl
  | current f before hlog hknown hrotated hold hbytes hoffset hinode =>
    rw [hlog, readChunks_log before (by omega) hbytes hoffset (hinode.imp_left And.left)]
    refine ⟨_, _, rfl, rfl, files_after hlog hknown, fun tally => ?_⟩
    rw [hold, List.nil_append]
    exact hone tally
  | unseen f hlog hknown hrotated hbytes hstats =>
    rw [hlog, readChunks_log [] (by omega) hbytes hstats.2.symm (.inl hstats.1)]
    refine ⟨_, _, rfl, rfl, files_after hlog hknown, fun tally => ?_⟩
    rw [List.map_append, foldlM_skipped (hunseen hstats.1)]
    exact hone tally
  | rotated f g before hlog hknown hrotated hbytes hold hinode hne hrest hoffset =>
    rw [hlog, hold, readChunks_rotated hroom hbytes hinode hne hrest hoffset]
    refine ⟨_, _, rfl, rfl, files_after hlog hknown, fun tally => ?_⟩
    have htexts : textsOf w [contentOf s.unreadOld, contentOf s.unread] =
        textsOf w [contentOf s.unreadOld] ++ textsOf w [contentOf s.unread] := by
      simp only [textsOf, List.flatMap_cons, List.flatMap_nil, List.append_nil]
    rw [htexts, foldlM_chunk, List.map_append, List.foldlM_append, List.foldlM_append]
    exact congrArg _ (funext hone)

/-! The steps. -/

theorem Counted.mono {Q : List Char → Prop} (h : Counted P days js) (hQ : ∀ day, Q day → P day) :
    Counted Q days js :=
  ⟨fun day hday => h.counts day (hQ day hday), h.known⟩

/-- The days that are over are deleted, the others trimmed. -/
theorem Counted.cleaned (h : Counted P days js) (hP : ∀ day, P day → ¬ day < cutoff) :
    Counted P (days.filterMap fun day d => if day < cutoff then none else some d.trimmed) js := by
  constructor
  · intro day hday
    rw [Table.get?_filterMap]
    have hcounts := h.counts day hday
    cases hd : days.get? day with
    | none => rwa [hd] at hcounts
    | some d =>
      rw [hd] at hcounts
      rw [Option.bind_some, if_neg (hP day hday)]
      exact hcounts.trimmed
  · intro day hday
    obtain ⟨d, hd⟩ := Table.mem_keys.mp hday
    rw [Table.get?_filterMap] at hd
    obtain ⟨d', hd', -⟩ := Option.bind_eq_some_iff.mp hd
    exact h.known day (Table.mem_keys.mpr ⟨d', hd'⟩)

/-- What every run keeps. -/
structure Inv (s : State) : Prop where
  files : Files s
  counted : Counted (Retained s) s.stats.days s.judged
  returned : s.thrown = false

/-- A call returns, and what it leaves is counted. -/
theorem collect_spec (h : Inv s) (hroom : unreadBytes (s.unreadOld ++ s.unread) ≤ maxReadBytes)
    (hfine : Fine w s (.collect csvText now)) :
    ∃ stats n, collect w csvText now s.log s.old s.stats = .ok (stats, n) ∧
      Files.after s stats ∧
      Counted (fun day => Retained s day ∧ ¬ day < cutoffText w now) stats.days
        (s.judged ++ (s.unreadOld ++ s.unread).filterMap (judge w csvText)) := by
  obtain ⟨chunks, read, hread, hdays, hafter, hlines⟩ :=
    readChunks_spec csvText h.files hroom hfine.2
  have hbefore : Counted (fun day => Retained s day ∧ ¬ day < cutoffText w now) read.days
      s.judged := by
    rw [hdays]
    exact h.counted.mono fun day hday => hday.1
  have hstart : Counted (fun day => Retained s day ∧ ¬ day < cutoffText w now)
      (Tally.mk read.days 0).days s.judged := hbefore
  obtain ⟨tally, htally, hcounted⟩ := foldlM_countLine (fun day hday => hday.2) hfine.1 hstart
  refine ⟨{ read with
    days := tally.days.filterMap fun day d => if day < cutoffText w now then none
      else some d.trimmed },
    tally.counted, ?_, hafter, hcounted.cleaned fun day hday => hday.2⟩
  have hfold := (hlines ⟨read.days, 0⟩).trans htally
  rw [textsOf] at hfold
  rw [collect, hread]
  dsimp only
  rw [hfold]
  rfl

theorem append_bytes {f : LogFile} (before : Bytes) (hbytes : f.bytes = before ++ contentOf lines)
    (line : Line) :
    (f.append line).bytes = before ++ contentOf (lines ++ [line]) := by
  rw [contentOf_concat, ← List.append_assoc, ← hbytes]
  rfl

/-- Each step that is fine keeps the invariant. -/
theorem inv_step {a : Act} (hs : step w s a = some t) (hfine : Fine w s a) (h : Inv s) : Inv t := by
  cases a with
  | create inode =>
    rw [step] at hs
    cases hlog : s.log with
    | some f => simp [hlog] at hs
    | none =>
      rw [hlog] at hs
      dsimp only at hs
      split at hs
      · cases hs
      cases hs
      refine ⟨?_, h.counted, h.returned⟩
      cases h.files with
      | closed _ hold hunread hrotated hstats =>
        exact .current ⟨inode, []⟩ [] rfl List.mem_cons_self hrotated hold (by rw [hunread]; rfl)
          hstats.2.symm
          (.inl hstats)
      | current f _ hlog' => simp [hlog] at hlog'
      | unseen f hlog' => simp [hlog] at hlog'
      | rotated f _ _ hlog' => simp [hlog] at hlog'
  | append line =>
    obtain ⟨f, hlog, rfl⟩ := Option.map_eq_some_iff.mp hs
    refine ⟨?_, h.counted, h.returned⟩
    cases h.files with
    | closed hlog' => simp [hlog] at hlog'
    | current f' before hlog' hknown hrotated hold hbytes hoffset hinode =>
      obtain rfl : f = f' := Option.some.inj (hlog.symm.trans hlog')
      exact .current _ before rfl hknown hrotated hold (append_bytes before hbytes line) hoffset
        hinode
    | unseen f' hlog' hknown hrotated hbytes hstats =>
      obtain rfl : f = f' := Option.some.inj (hlog.symm.trans hlog')
      exact .unseen _ rfl hknown hrotated (append_bytes [] hbytes line) hstats
    | rotated f' g before hlog' hknown hrotated hbytes hold hinode hne hrest hoffset =>
      obtain rfl : f = f' := Option.some.inj (hlog.symm.trans hlog')
      exact .rotated _ g before rfl hknown hrotated (append_bytes [] hbytes line) hold hinode hne
        hrest hoffset
  | appendOld line =>
    rw [step] at hs
    cases hold : s.old with
    | none => simp [hold] at hs
    | some g =>
      rw [hold] at hs
      dsimp only at hs
      split at hs
      · next hrot =>
        cases hs
        refine ⟨?_, h.counted, h.returned⟩
        cases h.files with
        | closed _ _ _ hrotated => simp [hrot] at hrotated
        | current _ _ _ _ hrotated => simp [hrot] at hrotated
        | unseen f hlog hknown hrotated hbytes hstats =>
          exact .unseen f hlog hknown hrotated hbytes hstats
        | rotated f g' before hlog hknown hrotated hbytes hold' hinode hne hrest hoffset =>
          obtain rfl : g = g' := Option.some.inj (hold.symm.trans hold')
          exact .rotated f _ before hlog hknown hrotated hbytes rfl hinode hne
            (append_bytes _ hrest line) hoffset
      · cases hs
  | rotate inode =>
    rw [step] at hs
    cases hlog : s.log with
    | none => simp [hlog] at hs
    | some f =>
      rw [hlog] at hs
      dsimp only at hs
      split at hs
      · cases hs
      next hguard =>
      cases hs
      obtain ⟨hrot, hfresh⟩ : s.rotated = false ∧ inode ∉ s.inodes := by simpa using hguard
      refine ⟨?_, h.counted, h.returned⟩
      cases h.files with
      | closed hlog' => simp [hlog] at hlog'
      | current f' before hlog' hknown hrotated hold hbytes hoffset hinode =>
        obtain rfl : f = f' := Option.some.inj (hlog.symm.trans hlog')
        rcases hinode with hstats | hinode
        · exact .unseen ⟨inode, []⟩ rfl List.mem_cons_self rfl rfl hstats
        · have hne : inode ≠ f.inode := by
            rintro rfl
            exact hfresh hknown
          exact .rotated ⟨inode, []⟩ f before rfl List.mem_cons_self rfl rfl rfl hinode hne hbytes
            hoffset
      | unseen _ _ _ hrotated => simp [hrot] at hrotated
      | rotated _ _ _ _ _ hrotated => simp [hrot] at hrotated
  | collect csvText now =>
    rw [step] at hs
    split at hs
    · cases hs
    next hroom =>
    obtain ⟨stats, n, hcollect, hafter, hcounted⟩ := collect_spec h (not_lt.mp hroom) hfine
    rw [hcollect] at hs
    cases hs
    refine ⟨hafter _ _ _, hcounted.mono fun day hday => ?_, h.returned⟩
    exact ⟨fun c hc => hday c (List.mem_cons_of_mem _ hc), hday _ List.mem_cons_self⟩

theorem Start.inv (h : Start s) : Inv s where
  files := .closed h.log h.unreadOld h.unread h.rotated (by rw [h.stats]; exact ⟨rfl, rfl⟩)
  counted := by
    rw [h.stats, h.judged]
    exact ⟨fun _ _ => dayCounts_empty, nofun⟩
  returned := h.thrown

theorem Inv.exact (h : Inv s) : Exact s where
  returned := h.returned
  countries day hday cc := by
    have hcounts := (h.counted.counts day hday).country cc
    rw [stored, onDay, ← hcounts]
    cases s.stats.days.get? day <;> rfl
  hosts day hday hfew host := by
    have hcounts := (h.counted.counts day hday).host hfew host
    rw [stored, onDay, ← hcounts]
    cases s.stats.days.get? day <;> rfl
  days := h.counted.known

/-- In a run whose calls are all fine, every block is counted exactly once. -/
theorem collect_counts_once {xs : List Act}
    (hrun : Run (Guarded (fun s a t => step w s a = some t) (Fine w)) s xs t)
    (hstart : Start s) : Exact t := by
  have hkeep : ∀ s a t, step w s a = some t → Fine w s a → Inv s → Inv t := fun _ _ _ => inv_step
  exact (hrun.guarded_invariant hkeep hstart.inv).exact

/-! Runs. -/

instance : ∀ a, Decidable (Fine w s a)
  | .create _ | .append _ | .appendOld _ | .rotate _ => isTrue trivial
  | .collect csvText now => by
    unfold Fine Harmless Skipped
    infer_instance

def opened : State where
  log := none
  old := none
  stats := ⟨none, 0, .empty⟩
  inodes := []
  rotated := false
  unreadOld := []
  unread := []
  judged := []
  cutoffs := []
  thrown := false

theorem opened_start : Start opened := ⟨rfl, rfl, rfl, rfl, rfl, rfl, rfl⟩

/-- Plain texts, and times in whole seconds. -/
def vienna : World where
  zone := autumn
  decode bytes := bytes.map fun b => Char.ofNat b.toNat
  decode_nil := rfl
  millis s := ((number 13 s).map fun n => .number (n * 1000)).getD .nan
  toLowerCase s := s.map Char.toLower

def lineOf (text : List Char) : Bytes := text.map fun c => UInt8.ofNat c.toNat

def plainLine : Line := ⟨lineOf "1793053800 192.0.2.7 Example.com".toList, by decide⟩

def austria : List Char := "192.0.2.0,192.0.2.255,AT".toList

/-- One block before the rotation and two behind it, and one written late to the rotated log; the
last call has a list. -/
def rotatedRun : List Act :=
  [.create 1, .append plainLine, .collect none 1793053800000, .append plainLine, .rotate 2,
    .appendOld plainLine,
    .append plainLine, .collect (some austria) 1793053800000]

theorem collect_counts_once_rotated :
    ∃ t, Run (Guarded (fun s a t => step vienna s a = some t) (Fine vienna)) opened rotatedRun t ∧
    Exact t ∧
      (stored t Day.hosts "2026-10-26".toList "example.com".toList,
        stored t Day.countries "2026-10-26".toList "AT".toList) = (4, 3) := by
  have hcount : ((rotatedRun.foldlM (Run.checked (step vienna) (Fine vienna)) opened).map fun t =>
      (stored t Day.hosts "2026-10-26".toList "example.com".toList,
        stored t Day.countries "2026-10-26".toList "AT".toList)) = some (4, 3) := by decide +kernel
  obtain ⟨t, ht, hstored⟩ := Option.map_eq_some_iff.mp hcount
  exact ⟨t, Run.of_checked ht, collect_counts_once (Run.of_checked ht) opened_start, hstored⟩

/-- An IPv4 address in the form of IPv6 is an address, and has no number. -/
def mappedLine : Line := ⟨lineOf "1793053800 ::ffff:192.0.2.1 example.com".toList, by decide⟩

theorem collect_throws : ¬ ∀ (w : World) (s t : State) (xs : List Act),
    Run (fun s a t => step w s a = some t) s xs t → Start s → Exact t := by
  intro hall
  have hthrown :
    (([.create 1, .append mappedLine, .collect (some []) 1793053800000] : List Act).foldlM
      (step vienna) opened).map
      State.thrown = some true := by decide +kernel
  obtain ⟨t, ht, hthrown⟩ := Option.map_eq_some_iff.mp hthrown
  have hexact := hall vienna opened t _ (Run.of_foldlM ht) opened_start
  exact absurd (hexact.returned.symm.trans hthrown) (by decide)

end FloppyGuard.GeoStats.Collect
