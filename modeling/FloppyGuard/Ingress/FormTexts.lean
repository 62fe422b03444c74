import FloppyGuard.CidrNumbers
import FloppyGuard.Ingress.Sanitize
import FloppyGuard.Lib.Words

/-! The addresses and ports that the rule form reads from texts and writes as texts (`utils.ts`). -/
namespace FloppyGuard.Ingress.Form

open Text
open CidrNumbers (groups tooLarge)

/-- `[\s,;]` -/
def isSeparator (c : Char) : Bool := isSpace c || c == ',' || c == ';'

def splitList (value : String) : List String :=
  (((value.toList.splitOnP isSeparator).map trim).filter (· ≠ [])).map String.ofList

/-- The groups of `IPV4_CIDR`, and the number behind the slash. -/
def ipv4Cidr (s : List Char) : Option ((ℕ × ℕ × ℕ × ℕ) × Option ℕ) :=
  match s.splitOn '/' with
  | [addr] => (groups addr).map (·, none)
  | [addr, bits] => (groups addr).bind fun g => (number 2 bits).map fun n => (g, some n)
  | _ => none

def isIpv4OrCidr (value : String) : Bool :=
  match ipv4Cidr value.toList with
  | none => false
  | some (octets, bits) => !tooLarge octets && !bits.any (32 < ·)

/-- The groups of `PORT_ENTRY`. -/
def portEntryParts (entry : List Char) : Option (String × ℕ × Option ℕ) :=
  match entry.splitOn '/' with
  | [proto, range] =>
    let proto := String.ofList (proto.map Char.toLower)
    if proto ∈ ingressProtos then
      match (range.map fun c => if c = '-' then ':' else c).splitOn ':' with
      | [first] => (number 5 first).map fun n => (proto, n, none)
      | [first, last] =>
        (number 5 first).bind fun n => (number 5 last).map fun m => (proto, n, some m)
      | _ => none
    else none
  | _ => none

def readPort (entry : String) : Option Port :=
  (portEntryParts entry.toList).bind fun (proto, first, last) =>
    if first < 1 ∨ 65535 < last.getD first ∨ last.getD first < first then none
    else some ⟨proto, match last with
      | some last => decimal first ++ ":" ++ decimal last
      | none => decimal first⟩

structure Parsed where
  ports : List Port
  invalid : List String

def parsePorts (value : String) : Parsed where
  ports := (splitList value).filterMap readPort
  invalid := (splitList value).filter fun entry => (readPort entry).isNone

/-- `${p.proto}/${p.port}` -/
def portKey (p : Port) : String := p.proto ++ "/" ++ p.port

def formatPorts (ports : List Port) : String := ", ".intercalate (ports.map portKey)

variable {value : String} {ports : List Port} {p : Port} {xs : List String} {s t : String}

/-! A list is read word by word. -/

/-- Words of a list: not empty, without separators. -/
def Word (s : String) : Prop := s ≠ "" ∧ ∀ c ∈ s.toList, isSeparator c = false

theorem isSeparator_of_isSpace {c : Char} (h : isSpace c = true) : isSeparator c = true := by
  simp [isSeparator, h]

theorem trim_of_clean {w : List Char} (h : ∀ c ∈ w, isSeparator c = false) : trim w = w := by
  refine trim_of_forall fun c hc => ?_
  by_contra hs
  have hsep := isSeparator_of_isSpace (Bool.not_eq_false _ ▸ hs)
  rw [h c hc] at hsep
  cases hsep

theorem splitList_eq (value : String) :
    splitList value = (words isSeparator value.toList).map String.ofList := by
  have htrim : (value.toList.splitOnP isSeparator).map trim = value.toList.splitOnP
      isSeparator := by
    refine (List.map_congr_left fun w hw => ?_).trans (List.map_id _)
    exact trim_of_clean (clean_of_mem_splitOnP hw)
  rw [splitList, htrim, words]

theorem word_of_mem_splitList (h : s ∈ splitList value) : Word s := by
  rw [splitList_eq] at h
  obtain ⟨w, hw, rfl⟩ := List.mem_map.mp h
  obtain ⟨hne, hclean⟩ := of_mem_words hw
  refine ⟨fun he => hne ?_, by simpa using hclean⟩
  simpa using congrArg String.toList he

theorem splitList_join (h : ∀ s ∈ xs, Word s) : splitList (", ".intercalate xs) = xs := by
  rw [splitList_eq, String.toList_intercalate, words_intercalate (by decide) (by decide),
    List.map_map]
  · exact (List.map_congr_left fun s _ => String.ofList_toList).trans (List.map_id _)
  · intro w hw
    obtain ⟨s, hs, rfl⟩ := List.mem_map.mp hw
    obtain ⟨hne, hclean⟩ := h s hs
    exact ⟨fun he => hne (String.toList_inj.mp he), hclean⟩

theorem splitList_append (s t : String) :
    splitList (s ++ ", " ++ t) = splitList s ++ splitList t := by
  rw [splitList_eq, splitList_eq, splitList_eq, String.toList_append, String.toList_append,
    words_join (by decide) (by decide),
    List.map_append]

theorem splitList_trim (value : String) :
    splitList (String.ofList (trim value.toList)) = splitList value := by
  obtain ⟨a, b, he, ha, hb⟩ := exists_trim value.toList
  have hsep : ∀ c ∈ a, isSeparator c = true := fun c hc => isSeparator_of_isSpace (ha c hc)
  have hsep' : ∀ c ∈ b, isSeparator c = true := fun c hc => isSeparator_of_isSpace (hb c hc)
  rw [splitList_eq, splitList_eq, String.toList_ofList]
  conv_rhs => rw [he, words_append_seps hsep', words_append_of_seps hsep]

/-! What is read of the ports that are written. -/

theorem proto_clean (h : p.proto ∈ ingressProtos) :
    ∀ c ∈ p.proto.toList, isSeparator c = false ∧ c ≠ '/' := by
  simp only [ingressProtos, List.mem_cons, List.not_mem_nil, or_false] at h
  rcases h with h | h
  · rw [h]
    decide
  · rw [h]
    decide

theorem splitOn_portKey (h : PortOk p) :
    (portKey p).toList.splitOn '/' = [p.proto.toList, p.port.toList] := by
  obtain ⟨a, b, -, -, -, hp⟩ := h.range
  have hproto : '/' ∉ p.proto.toList := fun hc => (proto_clean h.proto '/' hc).2 rfl
  have hport : '/' ∉ p.port.toList := by
    intro hc
    rw [hp] at hc
    rcases mem_portText hc with he | hd
    · cases he
    · cases hd
  have htext : (portKey p).toList = p.proto.toList ++ '/' :: p.port.toList := by simp [portKey]
  rw [htext, List.splitOn_append_cons_self_of_not_mem hproto, List.splitOn_eq_singleton hport]

/-- A port is read as it was written. -/
theorem readPort_portKey (h : PortOk p) : readPort (portKey p) = some p := by
  obtain ⟨a, b, ha, hab, hb, hp⟩ := h.range
  have hcolon (n : ℕ) : ':' ∉ Nat.toDigits 10 n := not_mem_toDigits (by decide)
  have hnumber (n : ℕ) (hn : n ≤ 65535) : number 5 (Nat.toDigits 10 n) = some n :=
    number_toDigits (by omega) (by omega)
  have hdash : p.port.toList.map (fun c => if c = '-' then ':' else c) = p.port.toList := by
    rw [hp]
    exact dash_portText
  obtain ⟨proto, port⟩ := p
  dsimp only at hp hdash
  subst hp
  rw [readPort, portEntryParts, splitOn_portKey h]
  dsimp only
  rw [toLower_of_mem_protos h.proto, if_pos h.proto, hdash, portText]
  by_cases he : a = b
  · subst he
    rw [if_pos rfl, decimal, String.toList_ofList, List.splitOn_eq_singleton (hcolon a)]
    simp [hnumber a hb, decimal]
    omega
  · have htext : (decimal a ++ ":" ++ decimal b).toList = Nat.toDigits 10 a ++ ':' ::
        Nat.toDigits 10 b := by
      simp [decimal]
    rw [if_neg he, htext, List.splitOn_append_cons_self_of_not_mem (hcolon a),
      List.splitOn_eq_singleton (hcolon b)]
    simp [hnumber a (by omega), hnumber b hb]
    omega

theorem word_portKey (h : PortOk p) : Word (portKey p) := by
  obtain ⟨a, b, -, -, -, hp⟩ := h.range
  have htext : (portKey p).toList = p.proto.toList ++ '/' :: p.port.toList := by simp [portKey]
  refine ⟨fun he => ?_, fun c hc => ?_⟩
  · rw [he] at htext
    exact absurd htext (by simp)
  · rw [htext] at hc
    rcases List.mem_append.mp hc with hc | hc
    · exact (proto_clean h.proto c hc).1
    rcases List.mem_cons.mp hc with rfl | hc
    · decide
    rw [hp] at hc
    rcases mem_portText hc with rfl | hd
    · decide
    · have hcomma : c ≠ ',' := fun he => by simp [he] at hd
      have hsemi : c ≠ ';' := fun he => by simp [he] at hd
      simp [isSeparator, isSpace_eq_false_of_isDigit hd, hcomma, hsemi]

theorem splitList_formatPorts (h : ∀ p ∈ ports, PortOk p) :
    splitList (formatPorts ports) = ports.map portKey := by
  refine splitList_join fun s hs => ?_
  obtain ⟨p, hp, rfl⟩ := List.mem_map.mp hs
  exact word_portKey (h p hp)

/-- Sanitized ports are read as they were written. -/
theorem parsePorts_formatPorts (h : ∀ p ∈ ports, PortOk p) :
    parsePorts (formatPorts ports) = ⟨ports, []⟩ := by
  have hread : ∀ p ∈ ports, readPort (portKey p) = some p := fun p hp => readPort_portKey (h p hp)
  rw [parsePorts, splitList_formatPorts h, List.filterMap_map, List.filter_map]
  have hports : ports.filterMap (readPort ∘ portKey) = ports :=
    (List.filterMap_congr hread).trans List.filterMap_some
  have hinvalid : ports.filter ((fun entry => (readPort entry).isNone) ∘ portKey) = [] := by
    refine List.filter_eq_nil_iff.mpr fun p hp => ?_
    simp [hread p hp]
  rw [hports, hinvalid]
  rfl

end FloppyGuard.Ingress.Form
