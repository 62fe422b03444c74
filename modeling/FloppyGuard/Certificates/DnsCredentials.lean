import FloppyGuard.Lib.Run
import FloppyGuard.Lib.Text
import FloppyGuard.Lib.UseCount
import Mathlib.Data.List.Count

/-! The credentials files of DNS challenges: `withDnsCredentials`, `removeStaleCredentialsFiles` and
`revokeLetsEncryptSsl`, each stretch between two awaits one step. Removing a file does not fail. -/
namespace FloppyGuard.Certificates.DnsCredentials

open Text

/-- `letsencryptRoot` and `certbotConfigDir`, which may be the same. -/
structure Dirs where
  letsencryptRoot : String
  certbotConfigDir : String

/-- A file in a directory. -/
structure Location where
  dir : String
  name : String
deriving DecidableEq

def Location.path (l : Location) : String := l.dir ++ "/" ++ l.name

/-! Where certbot expects the credentials. -/

def isLineEnd (c : Char) : Bool := c = '\n' || c = '\r' || c.toNat = 0x2028 || c.toNat = 0x2029

def isKeyChar (c : Char) : Bool := c.isLower || c.isDigit || c = '_'

/-- `\s*dns_[a-z0-9_]+_credentials\s*=\s*(\S+)\s*$` at the start of a text: what the key and the
value match is as long as it can be. -/
def referenceAt (text : List Char) : Option (List Char) :=
  let text := text.dropWhile isSpace
  let key := text.takeWhile isKeyChar
  match (text.dropWhile isKeyChar).dropWhile isSpace with
  | '=' :: rest =>
    let rest := rest.dropWhile isSpace
    let value := rest.takeWhile fun c => !isSpace c
    let after := rest.dropWhile fun c => !isSpace c
    if "dns_".toList.isPrefixOf key && "_credentials".toList.isSuffixOf key && 17 ≤ key.length &&
      value ≠ [] &&
        ((after.takeWhile isSpace).any isLineEnd || after.dropWhile isSpace = []) then
      some value
    else none
  | _ => none

/-- The first line start that the expression matches at. -/
def firstReference (lineStart : Bool) : List Char → Option (List Char)
  | [] => none
  | c :: text =>
    ((if lineStart then referenceAt (c :: text) else none).or (firstReference (isLineEnd c) text))

def credentialsReference (conf : String) : Option String :=
  (firstReference true conf.toList).map String.ofList

def credentialsName (certificate : ℕ) : String := "credentials-" ++ toString certificate

/-- `credentialsDirs` -/
def credentialsDirs (w : Dirs) : List String :=
  [w.letsencryptRoot ++ "/credentials", w.certbotConfigDir ++ "/credentials"].eraseDups

/-- The renewal conf of a certificate in a directory, if it can be read. -/
abbrev Renewal := String → ℕ → Option String

/-- `credentialsLocationFor` -/
def credentialsLocationFor (w : Dirs) (renewal : Renewal) (certificate : ℕ) : Location :=
  let fallback : Location := ⟨w.letsencryptRoot ++ "/credentials", credentialsName certificate⟩
  let allowed := (credentialsDirs w).map fun dir => Location.mk dir (credentialsName certificate)
  let reference := [w.certbotConfigDir, w.letsencryptRoot].eraseDups.findSome? fun dir =>
    (renewal dir certificate).bind credentialsReference
  match reference with
  | none => fallback
  | some path => (allowed.find? (·.path = path)).getD fallback

/-! The state. -/

/-- A file, with the number of the run that wrote it; others have left it there. -/
structure File where
  content : String
  writer : Option ℕ
deriving DecidableEq

/-- A run of `withDnsCredentials` that has written its file. -/
structure Usage where
  certificate : ℕ
  location : Location
  content : String
deriving DecidableEq

/-- A call of `removeStaleCredentialsFiles`: the directories to come, and the rest of the one it is
in. -/
structure Sweep where
  dirs : List String
  dir : String
  entries : List String
  onlyOnDisk : Table ℕ Bool
  removed : ℕ

/-- A call of `revokeLetsEncryptSsl` that waits for certbot. -/
structure Revocation where
  certificate : ℕ
  location : Location

structure State where
  renewal : Renewal
  files : Location → Option File
  credentialsInUse : Table ℕ ℕ
  runs : List Usage
  inProgress : List ℕ
  sweeps : List Sweep
  revocations : List (Option Revocation)
  /-- The runs of a certificate since none was in progress, for the statements only. -/
  since : ℕ → List ℕ

inductive Act
  /-- a renewal conf is created, changed or moved aside -/
  | renewal (dir : String) (certificate : ℕ) (conf : Option String)
  /-- up to the first await of the run; the write of the file may fail -/
  | start (certificate : ℕ) (content : String) (written : Bool)
  | finish (run : ℕ)
  | sweep
  /-- `readdirSync` of the next directory -/
  | list (sweep : ℕ) (entries : List String)
  /-- the next entry; the lookup says whether the file is the only copy -/
  | visit (sweep : ℕ) (onlyCopy : Bool)
  | revoke (certificate : ℕ)
  | revoked (revocation : ℕ) (ok : Bool)

def rm (files : Location → Option File) (l : Location) : Location → Option File :=
  Function.update files l none

/-- `finally` in `withDnsCredentials` -/
def State.leave (s : State) (certificate : ℕ) (location : Location) : State :=
  let (inUse, last) := UseCount.leave s.credentialsInUse certificate
  if last then
    { s with
      credentialsInUse := inUse
      files := rm s.files location
      since := Function.update s.since certificate [] }
  else { s with credentialsInUse := inUse }

def start (w : Dirs) (s : State) (certificate : ℕ) (content : String) (written : Bool) : State :=
  let location := credentialsLocationFor w s.renewal certificate
  let entered := { s with credentialsInUse := UseCount.enter s.credentialsInUse certificate }
  if written then
    { entered with
      files := Function.update s.files location (some ⟨content, some s.runs.length⟩)
      runs := s.runs ++ [⟨certificate, location, content⟩]
      inProgress := s.runs.length :: s.inProgress
      since := Function.update s.since certificate (s.runs.length :: s.since certificate) }
  else entered.leave certificate location

/-- `/^credentials-(\d+)(\.\d+\.\d+\.tmp)?$/`: the number, and whether the second part is there. -/
def staleEntry (entry : String) : Option (ℕ × Bool) :=
  match entry.toList.dropPrefix? "credentials-".toList with
  | none => none
  | some rest =>
    let digits := rest.takeWhile Char.isDigit
    let isNumber (part : List Char) : Bool := part ≠ [] && part.all Char.isDigit
    let id := Nat.ofDigitChars 10 digits 0
    if digits = [] then none
    else match rest.dropWhile Char.isDigit with
      | [] => some (id, false)
      | tail =>
        match tail.splitOn '.' with
        | [[], pid, seq, ['t', 'm', 'p']] =>
          if isNumber pid && isNumber seq then some (id, true) else none
        | _ => none

/-- One entry of a directory in `removeStaleCredentialsFiles`. -/
def visit (s : State) (sweep : Sweep) (entry : String) (entries : List String) (onlyCopy : Bool) :
    Sweep × (Location → Option File) :=
  let rest := { sweep with entries }
  match staleEntry entry with
  | none => (rest, s.files)
  | some (id, isTmp) =>
    let found := (sweep.onlyOnDisk.get? id).getD onlyCopy
    let looked := if isTmp then rest else { rest with onlyOnDisk := sweep.onlyOnDisk.set id found }
    if !isTmp && found then (looked, s.files)
    else if (s.credentialsInUse.get? id).isSome then (looked, s.files)
    else ({ looked with removed := sweep.removed + 1 }, rm s.files ⟨sweep.dir, entry⟩)

def step (w : Dirs) (s : State) : Act → Option State
  | .renewal dir certificate conf =>
    some { s with
        renewal := Function.update s.renewal dir (Function.update (s.renewal dir) certificate conf)
          }
  | .start certificate content written => some (start w s certificate content written)
  | .finish i =>
    match s.runs[i]? with
    | some u =>
      if i ∈ s.inProgress then
        some ({ s with inProgress := s.inProgress.erase i }.leave u.certificate u.location)
          else none
    | none => none
  | .sweep => some { s with sweeps := s.sweeps ++ [⟨credentialsDirs w, "", [], .empty, 0⟩] }
  | .list k entries =>
    match s.sweeps[k]? with
    | some ⟨dir :: dirs, _, [], onlyOnDisk, removed⟩ =>
      some { s with sweeps := s.sweeps.set k ⟨dirs, dir, entries, onlyOnDisk, removed⟩ }
    | _ => none
  | .visit k onlyCopy =>
    match s.sweeps[k]? with
    | some ⟨dirs, dir, entry :: entries, onlyOnDisk, removed⟩ =>
      let (sweep, files) := visit s ⟨dirs, dir, entry :: entries, onlyOnDisk, removed⟩ entry entries
        onlyCopy
      some { s with sweeps := s.sweeps.set k sweep, files }
    | _ => none
  | .revoke certificate =>
    some { s with
        revocations :=
          s.revocations ++ [some ⟨certificate, credentialsLocationFor w s.renewal certificate⟩] }
  | .revoked k ok =>
    match s.revocations[k]? with
    | some (some ⟨certificate, location⟩) =>
      some { s with
        revocations := s.revocations.set k none
        files := if ok && (s.credentialsInUse.get? certificate).isNone then rm s.files location
          else s.files }
    | _ => none

/-! What is to hold. -/

/-- How many runs of a certificate are in progress. -/
def State.users (s : State) (certificate : ℕ) : ℕ :=
  s.inProgress.countP fun i => s.runs[i]?.any (·.certificate = certificate)

/-- A run in progress finds its file, as it or a later run of the certificate has written it. -/
def Kept (s : State) : Prop := ∀ i ∈ s.inProgress, ∀ u, s.runs[i]? = some u →
  ∃ j v, i ≤ j ∧ s.runs[j]? = some v ∧ v.certificate = u.certificate ∧
    s.files u.location = some ⟨v.content, some j⟩

/-- A file that a run has written belongs to a certificate with a run in progress. -/
def Clean (s : State) : Prop :=
  ∀ location file j v, s.files location = some file → file.writer = some j →
  s.runs[j]? = some v → 0 < s.users v.certificate

/-- Nothing has run yet; there may be files of older versions. -/
structure Start (s : State) : Prop where
  credentialsInUse : s.credentialsInUse = .empty
  runs : s.runs = []
  inProgress : s.inProgress = []
  since : ∀ certificate, s.since certificate = []
  legacy : ∀ location file, s.files location = some file → file.writer = none

/-- When the last run of a certificate ends, all of its runs since it had none in progress were
given the same location. -/
def OneLocation (s : State) : Act → Prop
  | .finish i => ∀ u, s.runs[i]? = some u → s.users u.certificate = 1 →
    ∀ j ∈ s.since u.certificate, ∀ v, s.runs[j]? = some v → v.location = u.location
  | _ => True

def decideOneLocation (s : State) : (a : Act) → Decidable (OneLocation s a)
  | .finish i => inferInstanceAs (Decidable (∀ u ∈ s.runs[i]?, s.users u.certificate = 1 →
      ∀ j ∈ s.since u.certificate, ∀ v ∈ s.runs[j]?, v.location = u.location))
  | .renewal .. | .start .. | .sweep | .list .. | .visit .. | .revoke .. | .revoked .. =>
    inferInstanceAs (Decidable True)

instance (s : State) (a : Act) : Decidable (OneLocation s a) := decideOneLocation s a

/-! The invariant of every run. -/

structure Inv (s : State) : Prop where
  counts : UseCount.Counts s.credentialsInUse s.users
  nodup : s.inProgress.Nodup
  started : ∀ i ∈ s.inProgress, i < s.runs.length
  named : ∀ u ∈ s.runs, u.location.name = credentialsName u.certificate
  /-- what is in progress is so since the certificate was idle -/
  since : ∀ i ∈ s.inProgress, ∀ u, s.runs[i]? = some u → i ∈ s.since u.certificate
  idle : ∀ c, s.users c = 0 → s.since c = []
  written : ∀ c, ∀ i ∈ s.since c, ∃ u, s.runs[i]? = some u ∧ u.certificate = c ∧
    ∃ j ∈ s.since c, ∃ v, i ≤ j ∧ s.runs[j]? = some v ∧
      s.files u.location = some ⟨v.content, some j⟩
  writers : ∀ location file j, s.files location = some file → file.writer = some j →
    ∃ v, s.runs[j]? = some v ∧ v.location = location

/-- Each file that a run has written is one of the runs since its certificate was idle. -/
def Recent (s : State) : Prop :=
  ∀ location file j v, s.files location = some file → file.writer = some j →
  s.runs[j]? = some v → j ∈ s.since v.certificate

variable {w : Dirs} {s t : State} {a : Act} {c : ℕ}

theorem toList_credentialsName (c : ℕ) :
    (credentialsName c).toList = "credentials-".toList ++ Nat.toDigits 10 c := by
  rw [credentialsName, String.toList_append]
  exact congrArg _ Nat.toList_repr

theorem credentialsName_injective : Function.Injective credentialsName := by
  intro c d h
  have h := congrArg String.toList h
  rw [toList_credentialsName, toList_credentialsName] at h
  have h := congrArg (fun digits => Nat.ofDigitChars 10 digits 0) (List.append_cancel_left h)
  rwa [Nat.ofDigitChars_ten_toDigits, Nat.ofDigitChars_ten_toDigits] at h

theorem name_credentialsLocationFor (w : Dirs) (renewal : Renewal) (c : ℕ) :
    (credentialsLocationFor w renewal c).name = credentialsName c := by
  unfold credentialsLocationFor
  dsimp only
  split
  · rfl
  · next path _ =>
    cases hfind : ((credentialsDirs w).map fun dir => Location.mk dir (credentialsName c)).find?
      (·.path = path) with
    | none => rfl
    | some l =>
      obtain ⟨dir, -, rfl⟩ := List.mem_map.mp (List.mem_of_find?_eq_some hfind)
      rfl

theorem staleEntry_credentialsName (c : ℕ) : staleEntry (credentialsName c) = some (c, false) := by
  have hdigits : ∀ d ∈ Nat.toDigits 10 c, Char.isDigit d = true :=
    fun d hd => mem_toDigits_isDigit hd
  have hrest : (credentialsName c).toList.dropPrefix? "credentials-".toList =
      some (Nat.toDigits 10 c) := by
    rw [toList_credentialsName, List.dropPrefix?_append_of_beq _ (BEq.refl _)]
  have hnone : (Nat.toDigits 10 c).dropWhile Char.isDigit = [] :=
    List.dropWhile_eq_nil_iff.mpr hdigits
  have hall : (Nat.toDigits 10 c).takeWhile Char.isDigit = Nat.toDigits 10 c :=
    List.takeWhile_eq_self_iff.mpr hdigits
  rw [staleEntry, hrest]
  dsimp only
  rw [hall, hnone, if_neg Nat.toDigits_ne_nil, Nat.ofDigitChars_ten_toDigits]

theorem Inv.kept (h : Inv s) : Kept s := by
  intro i hi u hu
  obtain ⟨u', hu', -, j, hj, v, hij, hv, hfile⟩ := h.written u.certificate i (h.since i hi u hu)
  obtain rfl : u = u' := Option.some.inj (hu.symm.trans hu')
  obtain ⟨v', hv', hcert, -⟩ := h.written u.certificate j hj
  obtain rfl : v = v' := Option.some.inj (hv.symm.trans hv')
  exact ⟨j, v, hij, hv, hcert, hfile⟩

theorem Inv.clean (h : Inv s) (hr : Recent s) : Clean s := by
  intro location file j v hfile hwriter hv
  by_contra hidle
  have hnil := h.idle v.certificate (Nat.eq_zero_of_not_pos hidle)
  have hj := hr location file j v hfile hwriter hv
  rw [hnil] at hj
  cases hj

/-! Steps that at most remove files no run has in use. -/

/-- `t` has fewer files, and the same otherwise as far as the runs are concerned. -/
structure Removing (s t : State) : Prop where
  credentialsInUse : t.credentialsInUse = s.credentialsInUse
  runs : t.runs = s.runs
  inProgress : t.inProgress = s.inProgress
  since : t.since = s.since
  files : ∀ l, t.files l = s.files l ∨ t.files l = none ∧ ∀ c, l.name = credentialsName c →
    s.users c = 0

theorem Removing.users (h : Removing s t) : t.users = s.users := by
  funext c
  rw [State.users, State.users, h.inProgress, h.runs]

theorem Removing.of_files {l : Location} {file : File} (h : Removing s t)
    (hfile : t.files l = some file) :
    s.files l = some file := by
  rcases h.files l with hl | ⟨hl, -⟩
  · rwa [← hl]
  · rw [hl] at hfile
    cases hfile

theorem Inv.removing (h : Inv s) (ht : Removing s t) : Inv t where
  counts := by rw [ht.credentialsInUse, ht.users]; exact h.counts
  nodup := ht.inProgress ▸ h.nodup
  started := by rw [ht.inProgress, ht.runs]; exact h.started
  named := ht.runs ▸ h.named
  since := by rw [ht.inProgress, ht.runs, ht.since]; exact h.since
  idle := by rw [ht.users, ht.since]; exact h.idle
  written := by
    rw [ht.runs, ht.since]
    intro c i hi
    obtain ⟨u, hu, hc, j, hj, v, hij, hv, hfile⟩ := h.written c i hi
    refine ⟨u, hu, hc, j, hj, v, hij, hv, ?_⟩
    rcases ht.files u.location with hl | ⟨-, hl⟩
    · rwa [hl]
    · have hname := h.named u (List.mem_of_getElem? hu)
      rw [hc] at hname
      rw [h.idle c (hl c hname)] at hi
      cases hi
  writers := by
    rw [ht.runs]
    exact fun l file j hfile => h.writers l file j (ht.of_files hfile)

theorem Recent.removing (h : Recent s) (ht : Removing s t) : Recent t := by
  intro l file j v hfile hwriter hv
  rw [ht.since]
  rw [ht.runs] at hv
  exact h l file j v (ht.of_files hfile) hwriter hv

/-! The end of a run. -/

/-- The invariant between the end of a run of a certificate and its `finally`. -/
structure Leaving (s : State) (c : ℕ) : Prop where
  counts : UseCount.Counts s.credentialsInUse (Function.update s.users c (s.users c + 1))
  nodup : s.inProgress.Nodup
  started : ∀ i ∈ s.inProgress, i < s.runs.length
  named : ∀ u ∈ s.runs, u.location.name = credentialsName u.certificate
  since : ∀ i ∈ s.inProgress, ∀ u, s.runs[i]? = some u → i ∈ s.since u.certificate
  idle : ∀ d, d ≠ c → s.users d = 0 → s.since d = []
  written : ∀ d, ∀ i ∈ s.since d, ∃ u, s.runs[i]? = some u ∧ u.certificate = d ∧
    ∃ j ∈ s.since d, ∃ v, i ≤ j ∧ s.runs[j]? = some v ∧
      s.files u.location = some ⟨v.content, some j⟩
  writers : ∀ location file j, s.files location = some file → file.writer = some j →
    ∃ v, s.runs[j]? = some v ∧ v.location = location

/-- `finally` removes the file exactly if no run of the certificate is left. -/
theorem Leaving.leave_eq (h : Leaving s c) (l : Location) : s.leave c l =
    if s.users c = 0 then
      { s with
        credentialsInUse := (UseCount.leave s.credentialsInUse c).1
        files := rm s.files l
        since := Function.update s.since c [] }
    else { s with credentialsInUse := (UseCount.leave s.credentialsInUse c).1 } := by
  have hlast := h.counts.leave_snd c
  rw [Function.update_self] at hlast
  unfold State.leave
  dsimp only
  rw [hlast]
  by_cases hzero : s.users c = 0
  · rw [if_pos hzero, if_pos (decide_eq_true (by omega))]
  · rw [if_neg hzero, if_neg (by simpa using hzero)]

theorem Leaving.counts_leave (h : Leaving s c) :
    UseCount.Counts (UseCount.leave s.credentialsInUse c).1 s.users := by
  have hcounts := h.counts.leave c
  rwa [Function.update_self, Function.update_idem, Nat.add_sub_cancel, Function.update_eq_self]
    at hcounts

/-- The number of the other certificate in the name keeps its file. -/
theorem ne_of_certificate {l : Location} {u : Usage} (hl : l.name = credentialsName c)
    (hu : u.location.name = credentialsName u.certificate) (hne : u.certificate ≠ c) :
    u.location ≠ l := by
  rintro rfl
  exact hne (credentialsName_injective (hu.symm.trans hl))

theorem Leaving.leave (h : Leaving s c) {l : Location} (hl : l.name = credentialsName c) :
    Inv (s.leave c l) := by
  rw [h.leave_eq]
  split
  · next hzero =>
    have hother : ∀ d i, i ∈ Function.update s.since c [] d → d ≠ c ∧ i ∈ s.since d := by
      intro d i hi
      by_cases hd : d = c
      · rw [hd, Function.update_self] at hi
        cases hi
      · rw [Function.update_of_ne hd] at hi
        exact ⟨hd, hi⟩
    refine ⟨h.counts_leave, h.nodup, h.started, h.named, fun i hi u hu => ?_, fun d hd => ?_,
      fun d i hi => ?_, ?_⟩
    · have hne : u.certificate ≠ c := by
        intro hc
        have hnot := List.countP_eq_zero.mp hzero i hi
        rw [hu] at hnot
        simp [hc] at hnot
      change i ∈ Function.update s.since c [] u.certificate
      rw [Function.update_of_ne hne]
      exact h.since i hi u hu
    · change Function.update s.since c [] d = []
      by_cases hd' : d = c
      · rw [hd', Function.update_self]
      · rw [Function.update_of_ne hd']
        exact h.idle d hd' hd
    · obtain ⟨hd, hi⟩ := hother d i hi
      obtain ⟨u, hu, hcert, j, hj, v, hij, hv, hfile⟩ := h.written d i hi
      have hne : u.location ≠ l :=
        ne_of_certificate hl (h.named u (List.mem_of_getElem? hu)) (hcert ▸ hd)
      refine ⟨u, hu, hcert, j, ?_, v, hij, hv, ?_⟩
      · change j ∈ Function.update s.since c [] d
        rwa [Function.update_of_ne hd]
      · change rm s.files l u.location = _
        rwa [rm, Function.update_of_ne hne]
    · intro location file j hfile hwriter
      change rm s.files l location = some file at hfile
      by_cases hloc : location = l
      · rw [hloc, rm, Function.update_self] at hfile
        cases hfile
      · rw [rm, Function.update_of_ne hloc] at hfile
        exact h.writers location file j hfile hwriter
  · next hzero =>
    refine ⟨h.counts_leave, h.nodup, h.started, h.named, h.since, fun d hd => ?_, h.written,
      h.writers⟩
    refine h.idle d ?_ hd
    rintro rfl
    exact hzero hd

/-- What `OneLocation` says where a run has ended. -/
def AllAt (s : State) (c : ℕ) (l : Location) : Prop :=
  s.users c = 0 → ∀ j ∈ s.since c, ∀ v, s.runs[j]? = some v → v.location = l

theorem Leaving.recent (h : Leaving s c) (hr : Recent s) {l : Location} (hall : AllAt s c l) :
    Recent (s.leave c l) := by
  rw [h.leave_eq]
  split
  · next hzero =>
    intro location file j v hfile hwriter hv
    change rm s.files l location = some file at hfile
    change j ∈ Function.update s.since c [] v.certificate
    have hloc : location ≠ l := by
      rintro rfl
      rw [rm, Function.update_self] at hfile
      cases hfile
    rw [rm, Function.update_of_ne hloc] at hfile
    have hj := hr location file j v hfile hwriter hv
    by_cases hc : v.certificate = c
    · -- a file of the certificate is where all of its runs were
      obtain ⟨v', hv', hat⟩ := h.writers location file j hfile hwriter
      obtain rfl : v = v' := Option.some.inj (hv.symm.trans hv')
      exact absurd (hat.symm.trans (hall hzero j (hc ▸ hj) v hv)) hloc
    · rwa [Function.update_of_ne hc]
  · exact hr

/-- A file that is left behind shows a run with another location. -/
theorem Leaving.allAt (h : Leaving s c) {l : Location} (hclean : Clean (s.leave c l)) :
    AllAt s c l := by
  intro hzero j hj v hv
  rw [h.leave_eq, if_pos hzero] at hclean
  by_contra hne
  obtain ⟨v', hv', -, k, hk, x, -, hx, hfile⟩ := h.written c j hj
  obtain rfl : v = v' := Option.some.inj (hv.symm.trans hv')
  obtain ⟨x', hx', hcert, -⟩ := h.written c k hk
  obtain rfl : x = x' := Option.some.inj (hx.symm.trans hx')
  have hleft : rm s.files l v.location = some ⟨x.content, some k⟩ := by
    rwa [rm, Function.update_of_ne hne]
  have huse : 0 < s.users x.certificate := hclean v.location _ k x hleft rfl hx
  rw [hcert, hzero] at huse
  cases huse

theorem users_erase {i : ℕ} {u : Usage} (hi : i ∈ s.inProgress) (hu : s.runs[i]? = some u) (d : ℕ) :
    State.users { s with inProgress := s.inProgress.erase i } d =
      s.users d - if u.certificate = d then 1 else 0 := by
  rw [State.users, State.users, List.countP_erase, hu]
  simp [hi]

theorem users_pos {i : ℕ} {u : Usage} (hi : i ∈ s.inProgress) (hu : s.runs[i]? = some u) :
    0 < s.users u.certificate :=
  List.countP_pos_iff.mpr ⟨i, hi, by rw [hu]; simp⟩

/-- A run ends. -/
theorem Inv.finish (h : Inv s) {i : ℕ} {u : Usage} (hi : i ∈ s.inProgress)
    (hu : s.runs[i]? = some u) :
    Leaving { s with inProgress := s.inProgress.erase i } u.certificate := by
  have hsub : ∀ j ∈ s.inProgress.erase i, j ∈ s.inProgress := fun j hj => List.mem_of_mem_erase hj
  have hcount := users_erase hi hu
  have hpos := users_pos hi hu
  refine ⟨?_, h.nodup.erase i, fun j hj => h.started j (hsub j hj), h.named, fun j hj =>
    h.since j (hsub j hj), fun d hd hzero => ?_,
    h.written, h.writers⟩
  · have husers : Function.update (State.users { s with inProgress := s.inProgress.erase i })
      u.certificate
        (State.users { s with inProgress := s.inProgress.erase i } u.certificate + 1) =
          s.users := by
      funext d
      by_cases hd : d = u.certificate
      · subst hd
        rw [Function.update_self, hcount, if_pos rfl]
        omega
      · rw [Function.update_of_ne hd, hcount, if_neg (Ne.symm hd), Nat.sub_zero]
    rw [husers]
    exact h.counts
  · rw [hcount, if_neg (Ne.symm hd)] at hzero
    exact h.idle d hzero

/-- The write of the file fails, and the run is over. -/
theorem Inv.entered (h : Inv s) (c : ℕ) :
    Leaving { s with credentialsInUse := UseCount.enter s.credentialsInUse c } c :=
  ⟨h.counts.enter c, h.nodup, h.started, h.named, h.since, fun d _ => h.idle d, h.written,
    h.writers⟩

section Started

variable {location : Location} {content : String}

/-- The state behind the write of a file. -/
def afterStart (s : State) (c : ℕ) (location : Location) (content : String) : State :=
  { s with
    credentialsInUse := UseCount.enter s.credentialsInUse c
    files := Function.update s.files location (some ⟨content, some s.runs.length⟩)
    runs := s.runs ++ [⟨c, location, content⟩]
    inProgress := s.runs.length :: s.inProgress
    since := Function.update s.since c (s.runs.length :: s.since c) }

theorem runs_afterStart {i : ℕ} {u : Usage} (h : s.runs[i]? = some u) :
    (afterStart s c location content).runs[i]? = some u := by
  change (s.runs ++ [_])[i]? = some u
  rw [List.getElem?_append_left (List.getElem?_eq_some_iff.mp h).1, h]

theorem runs_afterStart_new :
    (afterStart s c location content).runs[s.runs.length]? = some ⟨c, location, content⟩ :=
  List.getElem?_concat_length

theorem runs_of_afterStart {i : ℕ} {u : Usage} (hi : i < s.runs.length)
    (h : (afterStart s c location content).runs[i]? = some u) :
    s.runs[i]? = some u := by
  change (s.runs ++ [_])[i]? = some u at h
  rwa [List.getElem?_append_left hi] at h

theorem mem_since_afterStart {d i : ℕ} :
    i ∈ (afterStart s c location content).since d ↔ d = c ∧ i = s.runs.length ∨ i ∈ s.since d := by
  change i ∈ Function.update s.since c (s.runs.length :: s.since c) d ↔ _
  by_cases hd : d = c
  · subst hd
    rw [Function.update_self, List.mem_cons]
    simp
  · rw [Function.update_of_ne hd]
    simp [hd]

theorem Inv.exists_run (h : Inv s) {i : ℕ} (hi : i ∈ s.inProgress) : ∃ u, s.runs[i]? = some u :=
  ⟨s.runs.get ⟨i, h.started i hi⟩, List.getElem?_eq_getElem _⟩

theorem Inv.users_afterStart (h : Inv s) :
    (afterStart s c location content).users = Function.update s.users c (s.users c + 1) := by
  funext d
  have hold : (s.inProgress.countP fun i => (afterStart s c location content).runs[i]?.any
      (·.certificate = d)) = s.users d := by
    refine List.countP_congr fun i hi => ?_
    obtain ⟨u, hu⟩ := h.exists_run hi
    rw [runs_afterStart hu, hu]
  change (s.runs.length :: s.inProgress).countP _ = _
  rw [List.countP_cons, hold, runs_afterStart_new]
  by_cases hd : d = c
  · subst hd
    rw [Function.update_self]
    simp
  · rw [Function.update_of_ne hd]
    simp [Ne.symm hd]

theorem Inv.start (h : Inv s) (hname : location.name = credentialsName c) :
    Inv (afterStart s c location content) := by
  have hold : ∀ l, l ≠ location → (afterStart s c location content).files l = s.files l :=
    fun l hl => Function.update_of_ne hl ..
  have hnew : (afterStart s c location content).files location =
      some ⟨content, some s.runs.length⟩ := Function.update_self ..
  refine ⟨?_, ?_, fun i hi => ?_, fun u hu => ?_, fun i hi u hu => ?_, fun d hd => ?_, fun d i hi =>
    ?_, fun l file j hl hj => ?_⟩
  · rw [h.users_afterStart]
    exact h.counts.enter c
  · exact List.nodup_cons.mpr ⟨fun hi => Nat.lt_irrefl _ (h.started _ hi), h.nodup⟩
  · change i < (s.runs ++ [_]).length
    rw [List.length_append, List.length_singleton]
    rcases List.mem_cons.mp hi with rfl | hi
    · exact Nat.lt_succ_self _
    · exact Nat.lt_succ_of_lt (h.started i hi)
  · rcases List.mem_append.mp hu with hu | hu
    · exact h.named u hu
    · rw [List.mem_singleton.mp hu]
      exact hname
  · rcases List.mem_cons.mp hi with rfl | hi
    · rw [runs_afterStart_new] at hu
      cases hu
      exact mem_since_afterStart.mpr (.inl ⟨rfl, rfl⟩)
    · exact mem_since_afterStart.mpr
        (.inr (h.since i hi u (runs_of_afterStart (h.started i hi) hu)))
  · rw [h.users_afterStart] at hd
    by_cases hc : d = c
    · subst hc
      rw [Function.update_self] at hd
      cases hd
    · rw [Function.update_of_ne hc] at hd
      exact (Function.update_of_ne hc ..).trans (h.idle d hd)
  · rcases mem_since_afterStart.mp hi with ⟨rfl, rfl⟩ | hi
    · exact ⟨_, runs_afterStart_new, rfl, s.runs.length, mem_since_afterStart.mpr (.inl ⟨rfl, rfl⟩),
        _, Nat.le_refl _,
        runs_afterStart_new, hnew⟩
    · obtain ⟨u, hu, hc, j, hj, v, hij, hv, hfile⟩ := h.written d i hi
      have hlt : i < s.runs.length := (List.getElem?_eq_some_iff.mp hu).1
      refine ⟨u, runs_afterStart hu, hc, ?_⟩
      by_cases hl : u.location = location
      · -- the new run has replaced the file, so it is one of the same certificate
        have hd : d = c := by
          rw [← hc]
          exact credentialsName_injective
            ((h.named u (List.mem_of_getElem? hu)).symm.trans (hl ▸ hname))
        exact ⟨s.runs.length, mem_since_afterStart.mpr (.inl ⟨hd, rfl⟩), _, hlt.le,
          runs_afterStart_new, hl ▸ hnew⟩
      · exact ⟨j, mem_since_afterStart.mpr (.inr hj), v, hij, runs_afterStart hv,
          (hold _ hl).trans hfile⟩
  · by_cases hloc : l = location
    · subst hloc
      rw [hnew] at hl
      cases hl
      cases hj
      exact ⟨_, runs_afterStart_new, rfl⟩
    · rw [hold l hloc] at hl
      obtain ⟨v, hv, hat⟩ := h.writers l file j hl hj
      exact ⟨v, runs_afterStart hv, hat⟩

theorem Recent.start (hr : Recent s) (h : Inv s) : Recent (afterStart s c location content) := by
  intro l file j v hl hj hv
  by_cases hloc : l = location
  · subst hloc
    rw [show (afterStart s c l content).files l = some ⟨content, some s.runs.length⟩ from
      Function.update_self ..] at hl
    cases hl
    cases hj
    rw [runs_afterStart_new] at hv
    cases hv
    exact mem_since_afterStart.mpr (.inl ⟨rfl, rfl⟩)
  · rw [show (afterStart s c location content).files l = s.files l from
      Function.update_of_ne hloc ..] at hl
    obtain ⟨v', hv', -⟩ := h.writers l file j hl hj
    obtain rfl : v' = v := Option.some.inj ((runs_afterStart hv').symm.trans hv)
    exact mem_since_afterStart.mpr (.inr (hr l file j v' hl hj hv'))

end Started

/-! The steps. -/

/-- A call of `revokeLetsEncryptSsl` waits with the file of its certificate. -/
def Pending (s : State) : Prop :=
  ∀ r, some r ∈ s.revocations → r.location.name = credentialsName r.certificate

theorem users_of_unused (h : Inv s) (hc : (s.credentialsInUse.get? c).isSome = false) :
    s.users c = 0 := by
  by_contra hne
  rw [(h.counts.isSome c).mpr hne] at hc
  cases hc

/-- An entry is removed only if its certificate has no run in progress. -/
theorem visit_files (h : Inv s) (sweep : Sweep) (entry : String) (entries : List String)
    (onlyCopy : Bool) (l : Location) :
    (visit s sweep entry entries onlyCopy).2 l = s.files l ∨
      (visit s sweep entry entries onlyCopy).2 l = none ∧ ∀ c, l.name = credentialsName c →
      s.users c = 0 := by
  unfold visit
  split
  · exact .inl rfl
  next id isTmp hentry =>
  dsimp only
  split
  · exact .inl rfl
  split
  · exact .inl rfl
  next hunused =>
  by_cases hl : l = ⟨sweep.dir, entry⟩
  · subst hl
    refine .inr ⟨Function.update_self .., fun c hname => ?_⟩
    have hname : entry = credentialsName c := hname
    rw [hname, staleEntry_credentialsName] at hentry
    cases hentry
    exact users_of_unused h (by simpa using hunused)
  · exact .inl (Function.update_of_ne hl ..)

/-- What one step does to the invariants. -/
structure Advances (s : State) (a : Act) (t : State) : Prop where
  inv : Inv t
  recent : Recent s → OneLocation s a → Recent t
  oneLocation : Recent s → Clean t → OneLocation s a

theorem Advances.removing (h : Inv s) (ht : Removing s t) (ha : OneLocation s a) : Advances s a t :=
  ⟨h.removing ht, fun hr _ => hr.removing ht, fun _ _ => ha⟩

theorem Advances.finish (h : Inv s) {i : ℕ} {u : Usage} (hi : i ∈ s.inProgress)
    (hu : s.runs[i]? = some u) :
    Advances s (.finish i) (State.leave { s with inProgress := s.inProgress.erase i } u.certificate
      u.location) := by
  have hleaving := h.finish hi hu
  have hname := h.named u (List.mem_of_getElem? hu)
  have hlast : State.users { s with inProgress := s.inProgress.erase i } u.certificate = 0 ↔
      s.users u.certificate = 1 := by
    have hpos := users_pos hi hu
    rw [users_erase hi hu, if_pos rfl]
    omega
  refine ⟨hleaving.leave hname, fun hr hok => hleaving.recent hr fun hzero =>
    hok u hu (hlast.mp hzero), fun hr hclean => ?_⟩
  intro u' hu' hone
  obtain rfl : u = u' := Option.some.inj (hu.symm.trans hu')
  exact hleaving.allAt hclean (hlast.mpr hone)

theorem Advances.start (h : Inv s) (w : Dirs) (c : ℕ) (content : String) (written : Bool) :
    Advances s (.start c content written) (start w s c content written) := by
  have hname := name_credentialsLocationFor w s.renewal c
  unfold DnsCredentials.start
  dsimp only
  split
  · exact ⟨h.start hname, fun hr _ => hr.start h, fun _ _ => trivial⟩
  · have hentered := h.entered c
    refine ⟨hentered.leave hname, fun hr _ => hentered.recent hr fun hzero => ?_, fun _ _ =>
      trivial⟩
    rw [show State.since _ c = s.since c from rfl, h.idle c hzero]
    exact nofun

theorem revocations_leave (s : State) (c : ℕ) (l : Location) :
    (s.leave c l).revocations = s.revocations := by
  unfold State.leave
  dsimp only
  split <;> rfl

theorem step_spec (h : Inv s) (hp : Pending s) (hs : step w s a = some t) :
    Advances s a t ∧ Pending t := by
  cases a with
  | renewal dir certificate conf =>
    cases hs
    exact ⟨.removing h ⟨rfl, rfl, rfl, rfl, fun _ => .inl rfl⟩ trivial, hp⟩
  | start certificate content written =>
    cases hs
    refine ⟨.start h w certificate content written, fun r hr => hp r ?_⟩
    unfold DnsCredentials.start at hr
    dsimp only at hr
    split at hr
    · exact hr
    · rwa [revocations_leave] at hr
  | finish i =>
    rw [step] at hs
    split at hs
    · next u hu =>
      split at hs
      · next hi =>
        cases hs
        refine ⟨.finish h hi hu, fun r hr => hp r ?_⟩
        rwa [revocations_leave] at hr
      · cases hs
    · cases hs
  | sweep =>
    cases hs
    exact ⟨.removing h ⟨rfl, rfl, rfl, rfl, fun _ => .inl rfl⟩ trivial, hp⟩
  | list k entries =>
    rw [step] at hs
    split at hs
    · cases hs
      exact ⟨.removing h ⟨rfl, rfl, rfl, rfl, fun _ => .inl rfl⟩ trivial, hp⟩
    · cases hs
  | visit k onlyCopy =>
    rw [step] at hs
    split at hs
    · next dirs dir entry entries onlyOnDisk removed _ =>
      cases hs
      exact ⟨.removing h ⟨rfl, rfl, rfl, rfl, visit_files h _ entry entries onlyCopy⟩ trivial, hp⟩
    · cases hs
  | revoke certificate =>
    cases hs
    refine ⟨.removing h ⟨rfl, rfl, rfl, rfl, fun _ => .inl rfl⟩ trivial, fun r hr => ?_⟩
    rcases List.mem_append.mp hr with hr | hr
    · exact hp r hr
    · cases List.mem_singleton.mp hr
      exact name_credentialsLocationFor w s.renewal certificate
  | revoked k ok =>
    rw [step] at hs
    split at hs
    · next certificate location hk =>
      cases hs
      have hname : location.name = credentialsName certificate :=
        hp ⟨certificate, location⟩ (List.mem_of_getElem? hk)
      refine ⟨.removing h ⟨rfl, rfl, rfl, rfl, fun l => ?_⟩ trivial, fun r hr => ?_⟩
      · dsimp only
        split
        · next hunused =>
          by_cases hl : l = location
          · subst hl
            refine .inr ⟨Function.update_self .., fun c hc => ?_⟩
            obtain rfl : c = certificate := credentialsName_injective (hc.symm.trans hname)
            exact users_of_unused h (by simpa using (Bool.and_eq_true_iff.mp hunused).2)
          · exact .inl (Function.update_of_ne hl ..)
        · exact .inl rfl
      · rcases List.mem_or_eq_of_mem_set hr with hr | hr
        · exact hp r hr
        · cases hr
    · cases hs

/-! Whole runs. -/

theorem Start.inv (h : Start s) : Inv s where
  counts c := by simp [h.credentialsInUse, State.users, h.inProgress]
  nodup := h.inProgress ▸ List.nodup_nil
  started := by simp [h.inProgress]
  named := by simp [h.runs]
  since := by simp [h.inProgress]
  idle c _ := h.since c
  written c i hi := by rw [h.since] at hi; cases hi
  writers l file j hl hj := by rw [h.legacy l file hl] at hj; cases hj

theorem Start.recent (h : Start s) : Recent s := by
  intro l file j v hl hj
  rw [h.legacy l file hl] at hj
  cases hj

/-- In every run of the steps the file of a certbot run stays until that run ends, and no file is
left behind, in any state on the way, exactly if `OneLocation` holds of each step. -/
theorem credentials_only_in_use {xs : List Act} (hs : Start s) (hp : s.revocations = [])
    (h : Run (fun s a t => step w s a = some t) s xs t) :
    (∀ ys u, ys <+: xs → Run (fun s a t => step w s a = some t) s ys u → Kept u) ∧
      ((∀ ys u, ys <+: xs → Run (fun s a t => step w s a = some t) s ys u → Clean u) ↔
        Run (Guarded (fun s a t => step w s a = some t) OneLocation) s xs t) := by
  have hpending : Pending s := by
    intro r hr
    rw [hp] at hr
    cases hr
  have hstep : ∀ s a t, step w s a = some t → Inv s ∧ Pending s → Inv t ∧ Pending t := by
    intro s a t hst hs
    obtain ⟨hadv, hp⟩ := step_spec hs.1 hs.2 hst
    exact ⟨hadv.inv, hp⟩
  constructor
  · intro ys u _ hrun
    exact (hrun.invariant hstep ⟨hs.inv, hpending⟩).1.kept
  · refine Run.guarded_iff_of (I := Recent) (J := fun s => Inv s ∧ Pending s)
      (fun h h' => Option.some.inj (h.symm.trans h'))
      (hstep _ _ _) (fun hj hi => hj.1.clean hi) (fun hst hj hi => ?_) h ⟨hs.inv, hpending⟩
        hs.recent
    obtain ⟨hadv, -⟩ := step_spec hj.1 hj.2 hst
    exact ⟨hadv.recent hi, hadv.oneLocation hi⟩

/-! Two runs of one certificate. -/

def sampleDirs : Dirs := ⟨"/data/letsencrypt", "/etc/letsencrypt"⟩

def idleState : State := ⟨fun _ _ => none, fun _ => none, .empty, [], [], [], [], fun _ => []⟩

theorem start_idleState : Start idleState := ⟨rfl, rfl, rfl, fun _ => rfl, nofun⟩

/-- Two runs of one certificate that share its file. -/
def together : List Act :=
  [.start 7 "dns_duckdns_token = a" true, .start 7 "dns_duckdns_token = b" true, .finish 0,
    .finish 1]

theorem kept_together : ∃ t, Run (fun s a t => step sampleDirs s a = some t) idleState together t ∧
    Kept t ∧ Clean t := by
  have hsome : (together.foldlM (Run.checked (step sampleDirs) OneLocation) idleState).isSome =
      true := by decide +kernel
  obtain ⟨t, ht⟩ := Option.isSome_iff_exists.mp hsome
  have hguarded := Run.of_checked ht
  have hrun := hguarded.of_guarded
  obtain ⟨hkept, hclean⟩ := credentials_only_in_use start_idleState rfl hrun
  exact ⟨t, hrun, hkept _ t (List.prefix_refl _) hrun,
    hclean.mpr hguarded _ t (List.prefix_refl _) hrun⟩

/-- The renewal conf is moved aside by the first run. -/
def movedAside : List Act :=
  [.renewal "/etc/letsencrypt" 7
      (some
        "[renewalparams]\ndns_duckdns_credentials = /etc/letsencrypt/credentials/credentials-7\n"),
    .start 7 "dns_duckdns_token = a" true, .renewal "/etc/letsencrypt" 7 none,
      .start 7 "dns_duckdns_token = b" true, .finish 0,
    .finish 1]

theorem run_movedAside :
    ∃ t, movedAside.foldlM (step sampleDirs) idleState = some t ∧ t.users 7 = 0 ∧
    t.runs[0]? = some ⟨7, ⟨"/etc/letsencrypt/credentials", "credentials-7"⟩,
      "dns_duckdns_token = a"⟩ ∧
    t.files ⟨"/etc/letsencrypt/credentials", "credentials-7"⟩ =
      some ⟨"dns_duckdns_token = a", some 0⟩ := by
  have hsome : (movedAside.foldlM (step sampleDirs) idleState).isSome = true := by decide +kernel
  obtain ⟨t, ht⟩ := Option.isSome_iff_exists.mp hsome
  have hparts : (movedAside.foldlM (step sampleDirs) idleState).map
    (fun t => (t.users 7, t.runs[0]?,
      t.files ⟨"/etc/letsencrypt/credentials", "credentials-7"⟩)) =
      some (0, some ⟨7, ⟨"/etc/letsencrypt/credentials", "credentials-7"⟩, "dns_duckdns_token = a"⟩,
        some ⟨"dns_duckdns_token = a", some 0⟩) := by decide +kernel
  rw [ht] at hparts
  have hparts := Option.some.inj hparts
  exact ⟨t, ht, congrArg Prod.fst hparts, congrArg (·.2.1) hparts, congrArg (·.2.2) hparts⟩

/-- The file of the first run is left for good. -/
theorem left_behind_movedAside :
    ∃ t, Run (fun s a t => step sampleDirs s a = some t) idleState movedAside t ∧ ¬ Clean t := by
  obtain ⟨t, ht, husers, hrun, hfile⟩ := run_movedAside
  refine ⟨t, Run.of_foldlM ht, fun hclean => ?_⟩
  have huse := hclean _ _ 0 _ hfile rfl hrun
  rw [husers] at huse
  cases huse

end FloppyGuard.Certificates.DnsCredentials
