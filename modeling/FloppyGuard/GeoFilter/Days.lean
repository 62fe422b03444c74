import FloppyGuard.Lib.Counts
import Mathlib

/-! The days of the statistics: their keys, what `collect` keeps and what `summary` shows. -/
namespace FloppyGuard.GeoStats

open Counts

/-! Local time. -/

def hour : ℤ := 3600000

def day : ℤ := 86400000

/-- The first millisecond of a year. -/
def newYear (y : ℤ) : ℤ :=
  day * (365 * (y - 1970) + (y - 1969) / 4 - (y - 1901) / 100 + (y - 1601) / 400)

/-- How far the clocks of a place are ahead. They change by an hour at most and twice a year at
most. -/
structure LocalTime where
  offset : ℤ → ℤ
  byHour : ∀ t, |offset t - offset (t - 1)| ≤ hour
  twice : ∀ y,
    ((Finset.Ioc (newYear y) (newYear (y + 1))).filter fun t => offset t ≠ offset (t - 1)).card ≤ 2

/-- The calendar date, counted from 1970-01-01. -/
def dayKey (z : LocalTime) (ms : ℤ) : ℤ := (ms + z.offset ms) / day

def timeOfDay (z : LocalTime) (ms : ℤ) : ℤ := (ms + z.offset ms) % day

/-! The stored days. -/

def retentionDays : ℕ := 30

def maxIpsPerDay : ℕ := 500

def maxHostsPerDay : ℕ := 200

structure Day where
  countries : Object
  hosts : Object
  ips : Object

def Day.trimmed (d : Day) : Day :=
  { d with ips := trimMap d.ips maxIpsPerDay, hosts := trimMap d.hosts maxHostsPerDay }

def cutoff (z : LocalTime) (now : ℤ) : ℤ := dayKey z (now - retentionDays * day)

/-- The last loop of `collect`. -/
def cleanUp (z : LocalTime) (now : ℤ) (days : ℤ → Option Day) (key : ℤ) : Option Day :=
  if key < cutoff z now then none else (days key).map Day.trimmed

structure Summary where
  days : ℕ
  total : Value
  countries : Object
  hosts : Object
  topIps : List (List Char × Option (List Char) × Value)
  perDay : List (ℤ × Value)

/-- What the loop of `summary` has added up. -/
structure Tally where
  total : Value
  countries : Object
  hosts : Object
  ips : Object
  perDay : List (ℤ × Value)

def visit (days : ℤ → Option Day) (t : Tally) (key : ℤ) : Tally :=
  match days key with
  | none => { t with perDay := t.perDay ++ [(key, .num 0)], total := plus t.total (.num 0) }
  | some d =>
    { total := plus t.total (Counts.sum d.countries)
      countries := addAll t.countries d.countries
      hosts := addAll t.hosts d.hosts
      ips := addAll t.ips d.ips
      perDay := t.perDay ++ [(key, Counts.sum d.countries)] }

/-- The keys `summary` looks up. -/
def visited (z : LocalTime) (now : ℤ) : List ℤ := (List.range retentionDays).reverse.map fun i :
    ℕ => dayKey z (now - i * day)

def summary (z : LocalTime) (days : ℤ → Option Day) (now : ℤ) : Summary :=
  let t := (visited z now).foldl (visit days) ⟨.num 0, Table.empty, Table.empty, Table.empty, []⟩
  { days := retentionDays
    total := t.total
    countries := sortDesc t.countries
    hosts := take (sortDesc t.hosts) 10
    topIps := (take (sortDesc t.ips) 10).entries.map fun p =>
      ((p.1.splitOn ' ').headD [], (p.1.splitOn ' ')[1]?, p.2)
    perDay := t.perDay }

variable {z : LocalTime} {a b y now c : ℤ} {days : ℤ → Option Day} {key : ℤ} {t : Tally} {n : ℕ}

/-! What a clock change can do. -/

theorem year_length (y : ℤ) : newYear y + 365 * day ≤ newYear (y + 1) := by
  simp only [newYear, day]
  omega

theorem newYear_add (y : ℤ) (n : ℕ) : newYear y + 365 * day * n ≤ newYear (y + n) := by
  induction n with
  | zero => simp
  | succ n ih =>
    have hstep := year_length (y + n)
    push_cast
    rw [← Int.add_assoc]
    simp only [day] at *
    omega

theorem exists_year (t : ℤ) : ∃ y, newYear y ≤ t ∧ t < newYear (y + 1) := by
  obtain ⟨y, hy, hmax⟩ := Int.exists_greatest_of_bdd (P := fun y => newYear y ≤ t)
    ⟨max 1970 (t + 1970), fun y hy => by simp only [newYear, day] at hy; omega⟩
    ⟨min 1970 (t + 1970), by simp only [newYear, day]; omega⟩
  refine ⟨y, hy, ?_⟩
  by_contra hlt
  have := hmax (y + 1) (by omega)
  omega

/-- Every change moves the offset by an hour at most. -/
theorem offset_change (h : a ≤ b) :
    |z.offset b - z.offset a| ≤ hour *
      ((Finset.Ioc a b).filter fun t => z.offset t ≠ z.offset (t - 1)).card := by
  induction b, h using Int.leInduction with
  | base => simp
  | succ b hab ih =>
    have hstep := z.byHour (b + 1)
    rw [Int.add_sub_cancel] at hstep
    have hIoc : Finset.Ioc a (b + 1) = insert (b + 1) (Finset.Ioc a b) := by
      ext t
      simp only [Finset.mem_Ioc, Finset.mem_insert]
      omega
    have hnot : b + 1 ∉ (Finset.Ioc a b).filter fun t => z.offset t ≠ z.offset (t - 1) := by
      intro hmem
      have := (Finset.mem_Ioc.mp (Finset.mem_filter.mp hmem).1).2
      omega
    rw [hIoc, Finset.filter_insert, Int.add_sub_cancel]
    rw [abs_le] at ih hstep ⊢
    split
    · rw [Finset.card_insert_of_notMem hnot]
      push_cast
      simp only [hour] at *
      omega
    · next heq =>
      simp only [hour] at *
      omega

theorem offset_in_year (hy : newYear y ≤ a) (h : a ≤ b) (hb : b ≤ newYear (y + 1)) :
    |z.offset b - z.offset a| ≤ 2 * hour := by
  have hsub : (Finset.Ioc a b).filter (fun t => z.offset t ≠ z.offset (t - 1)) ⊆
      (Finset.Ioc (newYear y) (newYear (y + 1))).filter fun t => z.offset t ≠ z.offset (t - 1) :=
    Finset.filter_subset_filter _ (Finset.Ioc_subset_Ioc hy hb)
  have hcard := (Finset.card_le_card hsub).trans (z.twice y)
  have hchange := offset_change (z := z) h
  simp only [hour] at *
  omega

theorem offset_years (y : ℤ) (n : ℕ) :
    |z.offset (newYear (y + n)) - z.offset (newYear y)| ≤ 2 * hour * n := by
  induction n with
  | zero => simp
  | succ n ih =>
    have hlength := year_length (y + n)
    have hyear := offset_in_year (z := z) (y := y + n) le_rfl (by simp only [day] at hlength; omega)
      le_rfl
    push_cast
    rw [← Int.add_assoc, abs_le]
    rw [abs_le] at ih hyear
    simp only [hour] at *
    omega

/-- In a day and more the clocks are never set back by as much. -/
theorem localTime_le (h : a + day ≤ b) : a + z.offset a ≤ b + z.offset b := by
  obtain ⟨y, hya, hay⟩ := exists_year a
  obtain ⟨y', hyb, hby⟩ := exists_year b
  have hle : y ≤ y' := by
    by_contra hlt
    obtain ⟨n, hn⟩ := Int.eq_ofNat_of_zero_le (show 0 ≤ y - (y' + 1) by omega)
    have hyears := newYear_add (y' + 1) n
    rw [show y' + 1 + (n : ℤ) = y by omega] at hyears
    simp only [day] at *
    omega
  obtain ⟨n, hn⟩ := Int.eq_ofNat_of_zero_le (show 0 ≤ y' - y by omega)
  cases n with
  | zero =>
    obtain rfl : y' = y := by omega
    have hchange := offset_in_year (z := z) hya (by simp only [day] at h; omega) hby.le
    rw [abs_le] at hchange
    simp only [hour, day] at *
    omega
  | succ n =>
    -- the rest of the first year, the years between, the begun year
    obtain rfl : y' = y + 1 + n := by push_cast at hn; omega
    have hfirst := offset_in_year (z := z) hya hay.le le_rfl
    have hyears := offset_years (z := z) (y + 1) n
    have hlast := offset_in_year (z := z) le_rfl hyb hby.le
    have hlength := newYear_add (y + 1) n
    rw [abs_le] at hfirst hyears hlast
    simp only [hour, day] at *
    omega

theorem dayKey_le (h : a + day ≤ b) : dayKey z a ≤ dayKey z b :=
  Int.ediv_le_ediv (by decide) (localTime_le h)

/-- A day that is still shown is never too old. -/
theorem cutoff_le (hc : c ≤ now) (hkey : key ∈ visited z now) : cutoff z c ≤ key := by
  obtain ⟨i, hi, rfl⟩ := List.mem_map.mp hkey
  have hlt := List.mem_range.mp (List.mem_reverse.mp hi)
  refine dayKey_le ?_
  simp only [retentionDays, day] at *
  omega

theorem cleanUp_visited (hc : c ≤ now) (hkey : key ∈ visited z now) :
    cleanUp z c days key = (days key).map Day.trimmed :=
  if_neg (Int.not_lt.mpr (cutoff_le hc hkey))

/-! What `summary` adds up. -/

/-- A file as `collect` writes it: the countries of a day are numbers under codes. -/
def Stored (days : ℤ → Option Day) : Prop := ∀ key d, days key = some d → IsCounts d.countries

def dayTotal (days : ℤ → Option Day) (key : ℤ) : ℕ :=
  (days key).elim 0 fun d => (d.countries.values.map Value.count).sum

def dayCount (days : ℤ → Option Day) (cc : List Char) (key : ℤ) : ℕ :=
  (days key).elim 0 fun d => count d.countries cc

theorem visit_spec (hs : Stored days) (key : ℤ) (hcounts : IsCounts t.countries) :
    (visit days t key).total = plus t.total (.num (dayTotal days key)) ∧
    (visit days t key).perDay = t.perDay ++ [(key, .num (dayTotal days key))] ∧
    IsCounts (visit days t key).countries ∧
    ∀ cc, count (visit days t key).countries cc = count t.countries cc + dayCount days cc key := by
  cases hkey : days key with
  | none =>
    simp only [visit, dayTotal, dayCount, hkey]
    exact ⟨rfl, rfl, hcounts, fun cc => rfl⟩
  | some d =>
    have hd := hs key d hkey
    simp only [visit, dayTotal, dayCount, hkey, sum_eq hd]
    exact ⟨rfl, rfl, addAll_spec hcounts hd⟩

theorem foldl_visit (hs : Stored days) (keys : List ℤ) (htotal : t.total = .num n)
    (hcounts : IsCounts t.countries) :
    (keys.foldl (visit days) t).total = .num (n + (keys.map (dayTotal days)).sum) ∧
    (keys.foldl (visit days) t).perDay = t.perDay ++ keys.map
    (fun key => (key, .num (dayTotal days key))) ∧
    IsCounts (keys.foldl (visit days) t).countries ∧
    ∀ cc, count (keys.foldl (visit days) t).countries cc = count t.countries cc +
      (keys.map (dayCount days cc)).sum := by
  induction keys generalizing t n with
  | nil => exact ⟨htotal, (List.append_nil _).symm, hcounts, fun cc => rfl⟩
  | cons key keys ih =>
    obtain ⟨hnext, hperDay, hkeeps, hcount⟩ := visit_spec hs key hcounts
    rw [htotal, plus_num] at hnext
    obtain ⟨h1, h2, h3, h4⟩ := ih hnext hkeeps
    refine ⟨?_, ?_, h3, fun cc => ?_⟩
    · rw [List.foldl_cons, h1, List.map_cons, List.sum_cons, Nat.add_assoc]
    · rw [List.foldl_cons, h2, hperDay, List.append_assoc]
      rfl
    · rw [List.foldl_cons, h4, hcount, List.map_cons, List.sum_cons, Nat.add_assoc]

theorem summary_spec (hs : Stored days) :
    (summary z days now).total = .num ((visited z now).map (dayTotal days)).sum ∧
    (summary z days now).perDay = (visited z now).map (fun key => (key, .num (dayTotal days key))) ∧
    IsCounts (summary z days now).countries ∧
    ∀ cc, count (summary z days now).countries cc =
      ((visited z now).map (dayCount days cc)).sum := by
  obtain ⟨h1, h2, h3, h4⟩ :=
    foldl_visit hs (visited z now) (t := ⟨.num 0, Table.empty, Table.empty, Table.empty, []⟩)
      rfl isCounts_empty
  refine ⟨?_, h2, h3.sortDesc, fun cc => ?_⟩
  · rw [Nat.zero_add] at h1
    exact h1
  · refine count_sortDesc.trans ((h4 cc).trans ?_)
    exact Nat.zero_add _

/-! The thirty days. -/

/-- The thirty days that end with one, the first one first. -/
def window (last : ℤ) : List ℤ := (List.range retentionDays).reverse.map fun i : ℕ => last - i

/-- What the summary of an instant is about. -/
structure CountsEveryDay (z : LocalTime) (now : ℤ) : Prop where
  distinct : (visited z now).Nodup
  consecutive : (visited z now).IsChain fun key next => next = key + 1
  today : (visited z now).getLast? = some (dayKey z now)
  total : ∀ days, Stored days →
    (summary z days now).total = .num (∑ key ∈ Finset.Icc (dayKey z now - 29) (dayKey z now),
      dayTotal days key)
  perCountry : ∀ days, Stored days → IsCounts (summary z days now).countries ∧ ∀ cc,
    count (summary z days now).countries cc =
    ∑ key ∈ Finset.Icc (dayKey z now - 29) (dayKey z now), dayCount days cc key
  perDay : ∀ days, Stored days →
    (summary z days now).perDay = (window (dayKey z now)).map fun key =>
      (key, .num (dayTotal days key))
  retention : ∀ days, ∀ c ≤ now, ∀ key ∈ visited z now,
    cleanUp z c days key = (days key).map Day.trimmed

/-- No clock change of the days before moves the time of day past midnight. -/
def KeepsDates (z : LocalTime) (now : ℤ) : Prop :=
  ∀ i < retentionDays, 0 ≤ timeOfDay z now + (z.offset (now - i * day) - z.offset now) ∧
    timeOfDay z now + (z.offset (now - i * day) - z.offset now) < day

theorem dayKey_back (i : ℕ) : dayKey z (now - i * day) = dayKey z now - i ↔
    0 ≤ timeOfDay z now + (z.offset (now - i * day) - z.offset now) ∧
      timeOfDay z now + (z.offset (now - i * day) - z.offset now) < day := by
  simp only [dayKey, timeOfDay, day]
  omega

theorem visited_eq_window (h : KeepsDates z now) : visited z now = window (dayKey z now) := by
  refine List.map_congr_left fun i hi => ?_
  exact (dayKey_back i).mpr (h i (List.mem_range.mp (List.mem_reverse.mp hi)))

theorem mem_window {last : ℤ} : key ∈ window last ↔ key ∈ Finset.Icc (last - 29) last := by
  simp only [window, retentionDays, List.mem_map, List.mem_reverse, List.mem_range, Finset.mem_Icc]
  constructor
  · rintro ⟨i, hi, rfl⟩
    omega
  · rintro ⟨h1, h2⟩
    exact ⟨(last - key).toNat, by omega, by omega⟩

theorem nodup_window (last : ℤ) : (window last).Nodup := by
  refine (List.nodup_reverse.mpr List.nodup_range).map fun i j h => ?_
  omega

theorem isChain_window (last : ℤ) : (window last).IsChain fun key next => next = key + 1 := by
  rw [window, List.isChain_map, List.isChain_reverse, List.isChain_iff_getElem]
  intro i hi
  simp only [List.getElem_range]
  omega

theorem sum_window (last : ℤ) (f : ℤ → ℕ) :
    ((window last).map f).sum = ∑ key ∈ Finset.Icc (last - 29) last, f key := by
  rw [← List.sum_toFinset f (nodup_window last)]
  refine Finset.sum_congr (Finset.ext fun key => ?_) fun _ _ => rfl
  rw [List.mem_toFinset, mem_window]

/-- Keys that go up day by day to the last one. -/
theorem chain_back {keys : List ℤ} {last : ℤ} (hchain : keys.IsChain fun key next => next = key + 1)
    (hlast : keys.getLast? = some last) : keys = (List.range keys.length).reverse.map fun i :
    ℕ => last - (i : ℤ) := by
  induction keys with
  | nil => rfl
  | cons key keys ih =>
    cases keys with
    | nil =>
      cases hlast
      simp
    | cons next keys =>
      obtain ⟨hnext, hchain⟩ := List.isChain_cons_cons.mp hchain
      have hrest := ih hchain (by simpa using hlast)
      rw [List.length_cons, List.range_succ, List.reverse_append, List.reverse_singleton,
        List.singleton_append, List.map_cons,
        ← hrest]
      refine congrArg (· :: next :: keys) ?_
      rw [List.length_cons, List.range_succ, List.reverse_append, List.reverse_singleton,
        List.singleton_append, List.map_cons] at hrest
      have hhead := (List.cons.inj hrest).1
      rw [List.length_cons]
      push_cast
      omega

/-- The summary counts every day once where the dates keep, and only there. -/
theorem countsEveryDay_iff (z : LocalTime) (now : ℤ) : CountsEveryDay z now ↔ KeepsDates z now := by
  constructor
  · intro h i hi
    have hkeys := chain_back h.consecutive h.today
    have hlength : (visited z now).length = retentionDays := by
      rw [visited, List.length_map, List.length_reverse, List.length_range]
    rw [hlength, visited] at hkeys
    exact (dayKey_back i).mp
      (List.map_inj_left.mp hkeys i (List.mem_reverse.mpr (List.mem_range.mpr hi)))
  · intro h
    have hwindow := visited_eq_window h
    constructor
    · rw [hwindow]
      exact nodup_window _
    · rw [hwindow]
      exact isChain_window _
    · rw [hwindow]
      rw [window, List.getLast?_map, List.getLast?_reverse]
      exact congrArg some (Int.sub_zero _)
    · intro days hs
      rw [(summary_spec hs).1, hwindow, sum_window]
    · intro days hs
      refine ⟨(summary_spec hs).2.2.1, fun cc => ?_⟩
      rw [(summary_spec hs).2.2.2, hwindow, sum_window]
    · intro days hs
      rw [(summary_spec hs).2.1, hwindow]
    · intro days c hc key hkey
      exact cleanUp_visited hc hkey

/-- One change, an hour back. -/
def setBack (t : ℤ) : ℤ := if t < 1792890000000 then 2 * hour else hour

theorem setBack_changes {t : ℤ} (h : setBack t ≠ setBack (t - 1)) : t = 1792890000000 := by
  by_contra hne
  refine h ?_
  simp only [setBack]
  split
  · next hlt => exact (if_pos (by omega)).symm
  · next hle => exact (if_neg (by omega)).symm

/-- Central Europe in the autumn of 2026. -/
def autumn : LocalTime where
  offset := setBack
  byHour := by
    intro t
    simp only [setBack, hour, abs_le]
    omega
  twice := by
    intro y
    have hsub : (Finset.Ioc (newYear y) (newYear (y + 1))).filter
        (fun t => setBack t ≠ setBack (t - 1)) ⊆ {1792890000000} := by
      intro t ht
      exact Finset.mem_singleton.mpr (setBack_changes (Finset.mem_filter.mp ht).2)
    exact (Finset.card_le_card hsub).trans (by decide)

/-- At half past eleven on the evening after the change, one and two days ago have one date. -/
theorem summary_counts_twice : ¬ CountsEveryDay autumn 1793053800000 := by
  intro h
  exact absurd h.distinct (by decide +kernel)

end FloppyGuard.GeoStats
