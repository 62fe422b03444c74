import FloppyGuard.GeoFilter.Countries
import Mathlib.Data.List.Dedup
import Mathlib.Data.List.Infix

/-! The selection of countries and the generated conf of `geo-filter.js`. A file is its lines. -/
namespace FloppyGuard.GeoFilter

open Text

abbrev Line := List Char

/-- `ISO_CODES`, by their first letter. -/
def isoLetters : List (Char × String) :=
  [('A', "DEFGILMOQRSTUWXZ"), ('B', "ABDEFGHIJLMNOQRSTVWYZ"), ('C', "ACDFGHIKLMNORUVWXYZ"),
    ('D', "EJKMOZ"),
    ('E', "CEGHRST"), ('F', "IJKMOR"), ('G', "ABDEFGHILMNPQRSTUWY"), ('H', "KMNRTU"),
      ('I', "DELMNOQRST"), ('J', "EMOP"),
    ('K', "EGHIMNPRWYZ"), ('L', "ABCIKRSTUVY"), ('M', "ACDEFGHKLMNOPQRSTUVWXYZ"),
      ('N', "ACEFGILOPRUZ"), ('O', "M"),
    ('P', "AEFGHKLMNRSTWY"), ('Q', "A"), ('R', "EOSUW"), ('S', "ABCDEGHIJKLMNORSTVXYZ"),
      ('T', "CDFGHJKLMNORTVWZ"),
    ('U', "AGMSYZ"), ('V', "ACEGINU"), ('W', "FS"), ('Y', "ET"), ('Z', "AMW")]

def isIsoCode (c : List Char) : Bool :=
  match c with
  | [a, b] => isoLetters.any fun p => p.1 = a && p.2.toList.contains b
  | _ => false

def euCountries : List String :=
  ["AT", "BE", "BG", "HR", "CY", "CZ", "DK", "EE", "FI", "FR", "DE", "GR", "HU", "IE", "IT", "LV",
    "LT", "LU", "MT", "NL", "PL",
    "PT", "RO", "SK", "SI", "ES", "SE"]

/-- `DEFAULT_COUNTRIES`, sorted -/
def defaultCountries : List (List Char) :=
  ((euCountries ++ ["CH"]).map String.toList).mergeSort Text.le

def maxCountries : ℕ := 250

/-- `toUpperCase`, for the characters whose upper case consists of the letters A to Z; no other text
becomes a code. -/
def toUpperCase : Char → List Char
  | 'ı' => ['I']
  | 'ſ' => ['S']
  | 'ß' => ['S', 'S']
  | 'ﬀ' => ['F', 'F']
  | 'ﬁ' => ['F', 'I']
  | 'ﬂ' => ['F', 'L']
  | 'ﬃ' => ['F', 'F', 'I']
  | 'ﬄ' => ['F', 'F', 'L']
  | 'ﬅ' => ['S', 'T']
  | 'ﬆ' => ['S', 'T']
  | c => [c.toUpper]

def normalizeCode (c : List Char) : List Char := (trim c).flatMap toUpperCase

def normalizeCountries (input : List (List Char)) : Except String (List (List Char)) :=
  let out := (input.map normalizeCode).dedup.mergeSort Text.le
  let bad := out.filter fun c => !isIsoCode c
  if bad ≠ [] then
    .error ("Unbekannte Ländercodes: " ++ ", ".intercalate ((bad.take 5).map String.ofList))
  else if out = [] then .error "Mindestens ein Land auswählen"
  else if maxCountries < out.length then .error "Höchstens 250 Länder"
  else .ok out

def privateRanges : List String :=
  ["127.0.0.0/8", "10.0.0.0/8", "172.16.0.0/12", "192.168.0.0/16", "100.64.0.0/10", "::1/128",
    "fc00::/7", "fe80::/10"]

/-- `CONF_FORMAT` -/
def confFormat : ℕ := 2

def headerFormat : Line := "# Format: ".toList

def headerCountries : Line := "# Länder: ".toList

def headerStand : Line := "# Stand: ".toList

def sourceLabel : Line := "IP Geolocation by DB-IP (db-ip.com, CC BY 4.0)".toList

/-- `stand` is the time of the list. -/
def renderConf (ranges countries : List (List Char)) (stand : List Char) (complete : Bool) :
    List Line :=
  [("# Von FloppyGuard erzeugt – Länder-Filter (Proxy-Host-Option, Einstellungen → " ++
    "Länder-Filter). Nicht von Hand " ++
      "ändern.").toList,
    headerFormat ++ Nat.toDigits 10 confFormat,
    headerCountries ++ [','].intercalate countries,
    headerStand ++ stand ++ " · ".toList ++ sourceLabel,
    if complete then "# Netze: ".toList ++ Nat.toDigits 10 ranges.length
    else "# NOTFASSUNG: Länderliste fehlt – nur private Netze erlaubt (fail-closed)".toList,
    "log_format fg_geo '$msec $remote_addr $host';".toList,
    "geo $fg_geo_allowed \x7b".toList,
    "  default 0;".toList] ++
  privateRanges.map (fun r => "  ".toList ++ r.toList ++ " 1;".toList) ++
  ranges.map (fun r => "  ".toList ++ r ++ " 1;".toList) ++
  ["\x7d".toList,
    "map \"$fg_geo_allowed:$uri\" $fg_geo_deny \x7b".toList,
    "  default 1;".toList,
    "  \"~^1:\" 0;".toList,
    "  \"~^0:/\\.well-known/acme-challenge/\" 0;".toList,
    "\x7d".toList,
    []]

structure ConfInfo where
  countries : List (List Char)
  fallback : Bool
  format : ℕ

/-- What follows a prefix in the first line that has it; the empty text if none has. -/
def headerLine (conf : List Line) (header : Line) : List Char :=
  (((conf.take 8).find? fun l => header.isPrefixOf l).map fun l => l.drop header.length).getD []

def readConfInfo : Option (List Line) → ConfInfo
  | none => ⟨[], true, 0⟩
  | some conf =>
    { countries := ((headerLine conf headerCountries).splitOn ',').filter (· ≠ [])
      fallback := conf.any fun l => decide ("NOTFASSUNG".toList <:+: l)
      -- a missing or unreadable number counts as 1
      format := match number (headerLine conf headerFormat).length (headerLine conf headerFormat)
        with
        | none | some 0 => 1
        | some n => n }

/-- The lines but that with the time. -/
def body (conf : List Line) : List Line := conf.filter fun l => !headerStand.isPrefixOf l

/-- Whether the file has changed, and the file. -/
def writeIfChanged (file : Option (List Line)) (text : List Line) : Bool × Option (List Line) :=
  if file.any fun current => body current = body text then (false, file) else (true, some text)

/-! A selection that has been checked is its own normal form. -/

variable {c : List Char} {input out : List (List Char)}

theorem isoLetters_plain : ∀ p ∈ isoLetters, toUpperCase p.1 = [p.1] ∧ isSpace p.1 = false ∧
    ∀ b ∈ p.2.toList, toUpperCase b = [b] ∧ isSpace b = false := by decide +kernel

theorem normalizeCode_iso (h : isIsoCode c = true) : normalizeCode c = c := by
  unfold isIsoCode at h
  split at h
  · next a b =>
    obtain ⟨p, hp, hcode⟩ := List.any_eq_true.mp h
    obtain ⟨hfirst, hspace, hletters⟩ := isoLetters_plain p hp
    rw [Bool.and_eq_true, decide_eq_true_eq, List.contains_iff_mem] at hcode
    obtain ⟨rfl, hb⟩ := hcode
    obtain ⟨hupper, hbspace⟩ := hletters b hb
    have htrim : trim [p.1, b] = [p.1, b] := trim_of_forall (by simp [hspace, hbspace])
    rw [normalizeCode, htrim, List.flatMap_cons, List.flatMap_cons, hfirst, hupper,
      List.flatMap_nil]
    rfl
  · cases h

theorem text_le_trans {a b d : List Char} (hab : Text.le a b = true) (hbd : Text.le b d = true) :
    Text.le a d = true := by
  induction a generalizing b d with
  | nil => rfl
  | cons x a ih =>
    cases b with
    | nil => cases hab
    | cons y b =>
      cases d with
      | nil => cases hbd
      | cons z d =>
        simp only [Text.le, Bool.or_eq_true, Bool.and_eq_true, decide_eq_true_eq, beq_iff_eq]
          at hab hbd ⊢
        rcases hab with hab | ⟨hxy, hab⟩
        · rcases hbd with hbd | ⟨hyz, -⟩
          · exact .inl (Nat.lt_trans hab hbd)
          · exact .inl (hyz ▸ hab)
        · rcases hbd with hbd | ⟨hyz, hbd⟩
          · exact .inl (hxy ▸ hbd)
          · exact .inr ⟨hxy.trans hyz, ih hab hbd⟩

theorem normalizeCountries_eq_ok (h : normalizeCountries input = .ok out) :
    out = (input.map normalizeCode).dedup.mergeSort Text.le ∧ (∀ c ∈ out, isIsoCode c = true) ∧
    out ≠ [] ∧
      out.length ≤ maxCountries := by
  unfold normalizeCountries at h
  dsimp only at h
  split at h
  · cases h
  next hbad =>
  split at h
  · cases h
  next hne =>
  split at h
  · cases h
  next hlen =>
  obtain rfl := Except.ok.inj h
  refine ⟨rfl, fun c hc => ?_, hne, Nat.not_lt.mp hlen⟩
  by_contra hcode
  have hmem : c ∈ ((input.map normalizeCode).dedup.mergeSort Text.le).filter fun c =>
      !isIsoCode c :=
    List.mem_filter.mpr ⟨hc, by simpa using hcode⟩
  rw [not_not.mp hbad] at hmem
  exact absurd hmem List.not_mem_nil

theorem normalizeCountries_of_ok (h : normalizeCountries input = .ok out) :
    normalizeCountries out = .ok out := by
  obtain ⟨hout, hiso, hne, hlen⟩ := normalizeCountries_eq_ok h
  have hmap : out.map normalizeCode = out := by
    conv_rhs => rw [← List.map_id out]
    exact List.map_congr_left fun c hc => normalizeCode_iso (hiso c hc)
  have hnodup : out.Nodup := by
    rw [hout]
    exact (List.mergeSort_perm _ _).nodup_iff.mpr (List.nodup_dedup _)
  have hsorted : out.Pairwise fun a b => Text.le a b = true := by
    have htrans : ∀ a b d : List Char, Text.le a b = true → Text.le b d = true →
        Text.le a d = true :=
      fun _ _ _ hab hbd => text_le_trans hab hbd
    have htotal : ∀ a b : List Char, (Text.le a b || Text.le b a) = true := by
      intro a b
      rw [Bool.or_eq_true]
      exact le_total a b
    rw [hout]
    exact List.pairwise_mergeSort htrans htotal _
  have hbad : out.filter (fun c => !isIsoCode c) = [] := by
    rw [List.filter_eq_nil_iff]
    intro c hc
    simp [hiso c hc]
  unfold normalizeCountries
  dsimp only
  rw [hmap, hnodup.dedup, List.mergeSort_of_pairwise hsorted, if_neg (not_not_intro hbad),
    if_neg hne, if_neg (Nat.not_lt.mpr hlen)]

end FloppyGuard.GeoFilter
