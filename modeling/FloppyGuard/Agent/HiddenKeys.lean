import FloppyGuard.Agent.DefaultRoute
import FloppyGuard.Lib.Throughout
import FloppyGuard.Nginx.AdvancedConfig

/-! The private key of an agent: what `wg-quick` reads as the key of a text, and what the hub masks
before it stores one. -/
namespace FloppyGuard.AgentSync

open Text WireGuard Throughout
open Nginx (toLowerCase)

/-! `wg-quick`, line by line. -/

/-- `[[:space:]]` -/
def isBlank (c : Char) : Bool := (9 ≤ c.toNat && c.toNat ≤ 13) || c == ' '

/-- `${line%%\#*}` -/
def stripped (line : List Char) : List Char := line.takeWhile (· ≠ '#')

/-- The key of a line, in lower case: `nocasematch` is on. -/
def quickKey (line : List Char) : List Char :=
  (strip isBlank ((stripped line).takeWhile (· ≠ '='))).map Char.toLower

def quickValue (line : List Char) : List Char := strip isBlank (afterEq (stripped line))

def isPrivateKey (line : List Char) : Bool :=
  quickKey line = "privatekey".toList && '=' ∈ stripped line

def quickLines (text : String) : List (List Char) := text.toList.splitOn '\n'

/-- What the lines above a line say about its section. -/
structure Above where
  /-- `interface_section` -/
  inInterface : Bool
  /-- the last line that starts with a bracket, without its white space -/
  header : Option (List Char)

namespace Above

def top : Above := ⟨false, none⟩

def line (a : Above) (line : List Char) : Above where
  inInterface :=
    if quickKey line = "[interface]".toList then true else if startsWith "[" (quickKey line) then
      false else a.inInterface
  header := if startsWith "[" (trim line) then some (trim line) else a.header

end Above

/-- A line that is read as the key of the interface has the value `(hidden)`. -/
def Hidden (a : Above) (line : List Char) : Prop :=
  a.inInterface = true → isPrivateKey line = true → quickValue line = "(hidden)".toList

/-- The line is spelled `PrivateKey`, has no `(hidden)` in it, and the last header above it is
exactly `[Interface]`. -/
def Masked (a : Above) (line : List Char) : Prop :=
  a.header = some "[Interface]".toList ∧ startsWith "PrivateKey" (trim line) = true ∧
    ¬ "(hidden)".toList <:+: trim line

def KeyHidden (text : String) : Prop := Throughout Above.line Hidden .top (quickLines text)

/-- Each key of the interface is hidden already or is one the hub knows. -/
def KeyKnown (text : String) : Prop :=
  Throughout Above.line (fun a l => Hidden a l ∨ Masked a l) .top (quickLines text)

instance decidableHidden (a : Above) (line : List Char) : Decidable (Hidden a line) :=
  inferInstanceAs (Decidable (_ → _ → _))

instance decidableMasked (a : Above) (line : List Char) : Decidable (Masked a line) :=
  inferInstanceAs (Decidable (_ ∧ _))

instance decidableKeyKnown (text : String) : Decidable (KeyKnown text) :=
  inferInstanceAs (Decidable (Throughout _ _ _ _))

/-! The sync of a stored config. -/

/-- Host, port and comment: `/^Endpoint\s*=\s*([^#]*?)\s*:\s*(\d+)\s*(#.*)?$/` -/
def endpointParts (t : List Char) : Option (List Char × List Char × List Char) :=
  if startsWith "Endpoint" t then
    match (t.drop 8).dropWhile isSpace with
    | '=' :: rest =>
      let value := rest.takeWhile (· ≠ '#')
      let comment := rest.dropWhile (· ≠ '#')
      let port := trim (value.reverse.takeWhile (· ≠ ':')).reverse
      if ':' ∈ value ∧ port ≠ [] ∧ port.all Char.isDigit ∧ comment.all (!isLineEnd ·) then
        some (trim (value.reverse.dropWhile (· ≠ ':')).tail.reverse, port, comment)
      else none
    | _ => none
  else none

def isIp (h : List Char) : Bool := isDotted h || startsWith "[" h

/-- The line with the host of the hub. An address stays unless the hub has one too. -/
def endpointLine (hubHost raw : String) : String :=
  match endpointParts (trim raw.toList) with
  | none => raw
  | some (host, port, comment) =>
    if isIp host && !isIp hubHost.toList then raw
    else if toLowerCase host = toLowerCase hubHost.toList then raw
    else "Endpoint = " ++ hubHost ++ ":" ++ String.ofList port ++
      (if comment = [] then "" else " " ++ String.ofList comment)

structure EndpointScan where
  peerIdx : ℕ
  inPeer : Bool
  replaced : Bool
  out : List String

namespace EndpointScan

def init : EndpointScan := ⟨0, false, false, []⟩

def line (hubHost : String) (s : EndpointScan) (raw : String) : EndpointScan :=
  if isPeerHeader raw then
    { s with peerIdx := s.peerIdx + 1, inPeer := true, out := s.out ++ [raw] }
  else if isHeader raw then { s with inPeer := false, out := s.out ++ [raw] }
  else if s.inPeer ∧ s.peerIdx = 1 ∧ s.replaced = false ∧
    (endpointParts (trim raw.toList)).isSome then
    { s with replaced := true, out := s.out ++ [endpointLine hubHost raw] }
  else { s with out := s.out ++ [raw] }

end EndpointScan

/-- `_rewriteHubPeerEndpoint` -/
def rewriteHubPeerEndpoint (text : String) (hubHost : Option String) : String :=
  match hubHost with
  | some host =>
    if text = "" then text
    else String.ofList (joined ((textLines text).foldl (EndpointScan.line host) .init).out)
  | none => text

/-- `_computeHubPeerAllowedIPs` -/
def computeHubPeerAllowedIPs (agentTunnelSubnet : String) (otherSiteNets : List String) :
    List String :=
  ((agentTunnelSubnet :: otherSiteNets).eraseDups).insertionSort fun x y => le x.toList y.toList

/-- What a sync depends on besides the agent: the networks of the other sites and of its own, and
`WG_HUB_HOST`. -/
structure SyncInput where
  otherSiteNets : List String
  localNets : List String
  wgHubHost : String

/-- `_syncOneAgent` -/
def syncedText (inp : SyncInput) (wgInterface : Option String) (text : String) :
    Except String String := do
  let newAllowedIPs := computeHubPeerAllowedIPs (tunnelSubnet text).render inp.otherSiteNets
  let allowedRewritten :=
    if [','].intercalate (newAllowedIPs.map String.toList) ≠
      sortedJoin (parseHubPeerAllowedIPs text) then
      rewriteHubPeerAllowedIPs text newAllowedIPs
    else text
  let rewritten := rewriteHubPeerEndpoint allowedRewritten (sanitizeHubHost inp.wgHubHost)
  let iface ← sanitizeWgInterface wgInterface
  normalizeAgentConfig rewritten (inp.otherSiteNets.insertionSort fun x y => le x.toList y.toList)
    ⟨some iface, inp.localNets⟩

/-- What rewrites a stored config: an update, or a sync, which is for agents with a link. -/
inductive Renewal
  | update (linkNames : List String) (data : AgentPatch)
  | sync (inp : SyncInput)

def renew (agent : StoredAgent) : Renewal → StoredAgent
  | .update linkNames data => next agent (.update linkNames data)
  | .sync inp =>
    match agent.config with
    | some text =>
      if agent.bound then
        match syncedText inp agent.wgInterface text with
        | .ok out => { agent with configText := some out }
        | .error _ => agent
      else agent
    | none => agent

variable {text out key : String} {line raw : String} {l k p s t : List Char} {nets : List String}
  {a : Above}

/-! How a line is read. -/

theorem isSpace_of_isBlank {c : Char} (h : isBlank c = true) : isSpace c = true := by
  rw [isBlank, Bool.or_eq_true, beq_iff_eq] at h
  rcases h with h | rfl
  · simp [isSpace, h]
  · decide

/-- What is visible at the start of a part that starts the line is at the start of the trimmed line.
-/
theorem prefix_trim (hp : ∀ c ∈ p, isSpace c = false) (hs : s <+: l) (h : p <+: strip isBlank s) :
    p <+: trim l := by
  rcases List.eq_nil_or_concat p with rfl | ⟨q, c, rfl⟩
  · exact List.nil_prefix
  obtain ⟨r, hr⟩ := h.trans strip_prefix
  obtain ⟨r', rfl⟩ := hs
  have hfront : ∀ d ∈ s.takeWhile isBlank, isSpace d = true :=
    fun d hd => isSpace_of_isBlank (List.mem_takeWhile_imp hd)
  have hl : s ++ r' = s.takeWhile isBlank ++ (q ++ c :: (r ++ r')) := by
    conv_lhs => rw [← List.takeWhile_append_dropWhile (p := isBlank) (l := s), ← hr]
    simp
  have hq : ∀ d ∈ q.head?, isSpace d = false :=
    fun d hd => hp d (by simp [List.mem_of_mem_head? hd])
  have hc : isSpace c = false := hp c (by simp)
  have htrim : trim (s ++ r') = trim (q ++ c :: (r ++ r')) := by
    rw [hl, trim, trim, List.dropWhile_append_of_pos hfront]
  obtain ⟨t, ht⟩ := trim_append_cons hq hc (r ++ r')
  exact ⟨t, by rw [htrim, ht, List.concat_eq_append, List.append_assoc, List.singleton_append]⟩

theorem prefix_of_key (line : List Char) : (stripped line).takeWhile (· ≠ '=') <+: line :=
  (List.takeWhile_prefix _).trans (List.takeWhile_prefix _)

/-- How the key of a line starts, the trimmed line does. -/
theorem prefix_of_quickKey (hk : ∀ c ∈ k, isSpace c = false) (h : k <+: quickKey l) :
    k <+: (trim l).map Char.toLower := by
  obtain ⟨p, hp, rfl⟩ := List.prefix_map_iff.mp h
  refine (prefix_trim (fun c hc => ?_) (prefix_of_key l) hp).map _
  have hlow := hk c.toLower (List.mem_map_of_mem hc)
  by_contra hspace
  rw [toLower_of_isSpace (by simpa using hspace)] at hlow
  exact hspace hlow

/-- A line that starts with `key` has no key that starts with another text. -/
theorem not_prefix_quickKey (hstart : startsWith key (trim l) = true)
    (hk : ∀ c ∈ k, isSpace c = false)
    (hne : ¬ (k <+: key.toList.map Char.toLower ∨ key.toList.map Char.toLower <+: k)) :
    ¬ k <+: quickKey l := by
  intro h
  have hkey : key.toList <+: trim l := List.isPrefixOf_iff_prefix.mp hstart
  exact hne (List.prefix_or_prefix_of_prefix (prefix_of_quickKey hk h) (hkey.map _))

/-- A line that starts with `key` is no header. -/
theorem line_of_start (hstart : startsWith key (trim l) = true)
    (hne : ¬ ("[".toList <+: key.toList.map Char.toLower ∨
      key.toList.map Char.toLower <+: "[".toList)) (a : Above) :
    a.line l = a := by
  have hkey : ¬ "[".toList <+: quickKey l := not_prefix_quickKey hstart (by decide) hne
  have hinterface : quickKey l ≠ "[interface]".toList := by
    intro h
    exact hkey (h ▸ by decide)
  have hquick : startsWith "[" (quickKey l) = false := Bool.eq_false_iff.mpr fun h =>
    hkey (List.isPrefixOf_iff_prefix.mp h)
  have hheader : startsWith "[" (trim l) = false := by
    refine Bool.eq_false_iff.mpr fun h => hne ?_
    have hprefix : "[".toList.map Char.toLower <+: (trim l).map Char.toLower :=
      (List.isPrefixOf_iff_prefix.mp h).map _
    exact List.prefix_or_prefix_of_prefix hprefix ((List.isPrefixOf_iff_prefix.mp hstart).map _)
  rw [Above.line, if_neg hinterface, hquick, hheader]
  rfl

/-- A text that neither a header nor a private key starts with. -/
def Inert (key : String) : Prop :=
  ¬ ("[".toList <+: key.toList.map Char.toLower ∨ key.toList.map Char.toLower <+: "[".toList) ∧
    ¬ ("privatekey".toList <+: key.toList.map Char.toLower ∨
      key.toList.map Char.toLower <+: "privatekey".toList)

instance decidableInert (key : String) : Decidable (Inert key) :=
  inferInstanceAs (Decidable (_ ∧ _))

theorem Inert.hidden (hkey : Inert key) (hstart : startsWith key (trim l) = true) (a : Above) :
    Hidden a l := by
  intro _ hread
  rw [isPrivateKey, Bool.and_eq_true, decide_eq_true_eq] at hread
  refine absurd ?_ (not_prefix_quickKey hstart (by decide) hkey.2)
  rw [hread.1]

theorem Inert.neutral {P : Above → List Char → Prop} (hkey : Inert key)
    (hP : ∀ a l, Hidden a l → P a l)
    (hstart : startsWith key (trim l) = true) : Neutral Above.line P l :=
  fun a => ⟨line_of_start hstart hkey.1 a, hP a l (hkey.hidden hstart a)⟩

/-! Carriage returns at the end of a line. -/

/-- All that matters of a line. -/
def seen (line : List Char) : List Char × Bool × List Char × List Char :=
  (quickKey line, decide ('=' ∈ stripped line), quickValue line, trim line)

theorem takeWhile_return {p : Char → Bool} (hp : p '\r' = true) (t : List Char) :
    (t ++ ['\r']).takeWhile p = t.takeWhile p ∨ (t ++ ['\r']).takeWhile p = t.takeWhile p ++
    ['\r'] := by
  rw [List.takeWhile_append]
  split
  · next hall =>
    right
    rw [(List.takeWhile_prefix p).eq_of_length hall, List.takeWhile_cons_of_pos hp,
      List.takeWhile_nil]
  · exact .inl rfl

theorem strip_return (t : List Char) : strip isBlank (t ++ ['\r']) = strip isBlank t := by
  refine strip_append fun c hc => ?_
  rw [List.mem_singleton.mp hc]
  decide

theorem afterEq_return (t : List Char) : afterEq (t ++ ['\r']) = afterEq t ++ ['\r'] := by
  have hmem : '=' ∈ t ++ ['\r'] ↔ '=' ∈ t := by simp
  unfold afterEq
  by_cases heq : '=' ∈ t
  · have hne : t.dropWhile (· ≠ '=') ≠ [] := by
      intro h
      have hall := List.dropWhile_eq_nil_iff.mp h '=' heq
      simp at hall
    rw [if_pos (hmem.mpr heq), if_pos heq, List.dropWhile_append, if_neg (by simpa using hne),
      List.tail_append_of_ne_nil hne]
  · rw [if_neg (mt hmem.mp heq), if_neg heq]

theorem seen_cutReturn (line : List Char) : seen (cutReturn line) = seen line := by
  unfold cutReturn
  split
  · next h =>
    obtain ⟨t, rfl⟩ : ∃ t, line = t ++ ['\r'] := ⟨_, (List.dropLast_append_getLast? _ h).symm⟩
    rw [List.dropLast_concat, seen, seen, trim_append_space (by decide)]
    rcases takeWhile_return (p := (· ≠ '#')) (by decide) t with hstripped | hstripped
    · have hline : stripped (t ++ ['\r']) = stripped t := hstripped
      rw [quickKey, quickKey, quickValue, quickValue, hline]
    · have hkey : strip isBlank ((stripped t ++ ['\r']).takeWhile (· ≠ '=')) =
          strip isBlank ((stripped t).takeWhile (· ≠ '=')) := by
        rcases takeWhile_return (p := (· ≠ '=')) (by decide) (stripped t) with hcut | hcut
        · rw [hcut]
        · rw [hcut, strip_return]
      have hmem : '=' ∈ stripped t ++ ['\r'] ↔ '=' ∈ stripped t := by simp
      have hline : stripped (t ++ ['\r']) = stripped t ++ ['\r'] := hstripped
      rw [quickKey, quickKey, quickValue, quickValue, hline, hkey, afterEq_return, strip_return,
        decide_eq_decide.mpr hmem]
  · rfl

/-- The lines the hub splits a text into read as those of `wg-quick`. -/
theorem seen_textLines (text : String) :
    (textLines text).map (fun l => seen l.toList) = (quickLines text).map seen := by
  have hsplit := map_splitLines_intercalate seen_cutReturn (List.splitOn_ne_nil '\n' text.toList)
    not_mem_of_mem_splitOn
  have hjoin : ['\n'].intercalate (text.toList.splitOn '\n') = text.toList :=
    List.intercalate_splitOn '\n'
  rw [hjoin] at hsplit
  rw [quickLines, ← hsplit, textLines, List.map_map]
  simp [Function.comp_def]

theorem line_seen (a : Above) (s t : List Char) (h : seen s = seen t) : a.line s = a.line t := by
  obtain ⟨hkey, -, -, htrim⟩ : quickKey s = quickKey t ∧
    decide ('=' ∈ stripped s) = decide ('=' ∈ stripped t) ∧
      quickValue s = quickValue t ∧ trim s = trim t := by simpa [seen] using h
  rw [Above.line, Above.line, hkey, htrim]

theorem known_seen (a : Above) (s t : List Char) (h : seen s = seen t) :
    (Hidden a s ∨ Masked a s) ↔ (Hidden a t ∨ Masked a t) := by
  obtain ⟨hkey, hmem, hvalue, htrim⟩ : quickKey s = quickKey t ∧
    decide ('=' ∈ stripped s) = decide ('=' ∈ stripped t) ∧
      quickValue s = quickValue t ∧ trim s = trim t := by simpa [seen] using h
  rw [Hidden, Hidden, Masked, Masked, isPrivateKey, isPrivateKey, hkey, hmem, hvalue, htrim]

theorem keyKnown_iff (text : String) : KeyKnown text ↔
    Throughout Above.line (fun a l => Hidden a l ∨ Masked a l) .top
      ((textLines text).map String.toList) := by
  have hlines : (quickLines text).map seen = ((textLines text).map String.toList).map seen := by
    rw [List.map_map]
    exact (seen_textLines text).symm
  exact Throughout.congr line_seen known_seen hlines

/-! The scan that masks. -/

def hiddenLine : String := "PrivateKey = (hidden)"

theorem hiddenLine_neutral : Neutral Above.line Hidden hiddenLine.toList :=
  fun a =>
    ⟨line_of_start (by decide : startsWith "PrivateKey" (trim hiddenLine.toList) = true) (by decide)
      a, fun _ _ => by decide⟩

theorem hook_start {isUp : Bool} (h : isHook isUp raw = true) :
    ∃ key, Inert key ∧ startsWith key (trim raw.toList) = true := by
  cases isUp with
  | true => exact ⟨"PostUp", by decide, h⟩
  | false => exact ⟨"PostDown", by decide, h⟩

/-- What a line adds to the scan. -/
def maskedLine (a : Above) (raw : String) : List String :=
  if Masked a raw.toList then [hiddenLine] else if isHook true raw || isHook false raw then []
    else [raw]

theorem NormalScan.line_spec {s : NormalScan}
    (hs : s.inInterface = decide (a.header = some "[Interface]".toList)) (raw : String) :
    (s.line raw).inInterface = decide ((a.line raw.toList).header = some "[Interface]".toList) ∧
      (s.line raw).out = s.out ++ maskedLine a raw := by
  have hin : (s.line raw).inInterface =
      decide ((a.line raw.toList).header = some "[Interface]".toList) := by
    change (if trim raw.toList = "[Interface]".toList then true else if isHeader raw then false
      else s.inInterface) =
      decide ((if isHeader raw then some (trim raw.toList) else a.header) =
        some "[Interface]".toList)
    by_cases hinterface : trim raw.toList = "[Interface]".toList
    · have hheader : isHeader raw = true := by
        rw [isHeader, hinterface]
        decide
      rw [if_pos hinterface, if_pos hheader, hinterface, decide_eq_true rfl]
    · rw [if_neg hinterface]
      split
      · exact (decide_eq_false fun h => hinterface (Option.some.inj h)).symm
      · exact hs
  refine ⟨hin, ?_⟩
  have hmasked : ((s.line raw).inInterface = true ∧
      startsWith "PrivateKey" (trim raw.toList) = true ∧
      ¬ "(hidden)".toList <:+: trim raw.toList) ↔ Masked a raw.toList := by
    rw [hin, decide_eq_true_eq, Masked]
    refine and_congr_left fun h => ?_
    rw [line_of_start h.1 (by decide)]
  change (if (s.line raw).inInterface = true ∧ startsWith "PrivateKey" (trim raw.toList) = true ∧
      ¬ "(hidden)".toList <:+: trim raw.toList then s.out ++ [hiddenLine]
    else if isHook true raw || isHook false raw then s.out else s.out ++ [raw]) = _
  rw [if_congr hmasked rfl rfl, maskedLine]
  split
  · rfl
  split
  · rw [List.append_nil]
  · rfl

/-- What the scan leaves is hidden when each key is hidden already or known. -/
theorem normalScan_hidden_iff (lines : List String) (s : NormalScan)
    (hs : s.inInterface = decide (a.header = some "[Interface]".toList)) :
    ∃ added, (lines.foldl NormalScan.line s).out = s.out ++ added ∧
      (Throughout Above.line Hidden a (added.map String.toList) ↔
        Throughout Above.line (fun a l => Hidden a l ∨ Masked a l) a
          (lines.map String.toList)) := by
  induction lines generalizing a s with
  | nil => exact ⟨[], (List.append_nil _).symm, iff_of_true .nil .nil⟩
  | cons raw lines ih =>
    obtain ⟨hin, hout⟩ := NormalScan.line_spec hs raw
    obtain ⟨added, hadded, hiff⟩ := ih (s.line raw) hin
    refine ⟨maskedLine a raw ++ added, ?_, ?_⟩
    · rw [List.foldl_cons, hadded, hout, List.append_assoc]
    rw [List.map_cons, Throughout.cons_iff, ← hiff, maskedLine]
    by_cases hmasked : Masked a raw.toList
    · rw [if_pos hmasked, line_of_start hmasked.2.1 (by decide), List.map_append,
        List.map_singleton, List.singleton_append,
        Throughout.cons_iff, (hiddenLine_neutral a).1, and_iff_right (hiddenLine_neutral a).2,
          and_iff_right (.inr hmasked)]
    rw [if_neg hmasked]
    by_cases hhook : (isHook true raw || isHook false raw) = true
    · obtain ⟨key, hkey, hstart⟩ : ∃ key, Inert key ∧ startsWith key (trim raw.toList) = true := by
        rcases Bool.or_eq_true_iff.mp hhook with h | h
        · exact hook_start h
        · exact hook_start h
      rw [if_pos hhook, line_of_start hstart hkey.1, List.nil_append,
        and_iff_right (.inl (hkey.hidden hstart a))]
    · rw [if_neg hhook, List.singleton_append, List.map_cons, Throughout.cons_iff,
        or_iff_left hmasked]

/-! A stored text. -/

theorem nil_neutral : Neutral Above.line Hidden [] :=
  fun _ => ⟨rfl, fun _ hread => absurd hread (by decide)⟩

theorem keyHidden_nil : KeyHidden "" := Throughout.cons_iff.mpr ⟨(nil_neutral _).2, .nil⟩

theorem quickLines_joined {ls : List String} (hne : ls ≠ []) (h : ∀ l ∈ ls, '\n' ∉ l.toList) :
    quickLines (String.ofList (joined ls)) = ls.map String.toList := by
  rw [quickLines, String.toList_ofList, joined]
  refine List.splitOn_intercalate '\n' (fun l hl => ?_) (by simpa using hne)
  obtain ⟨l, hmem, rfl⟩ := List.mem_map.mp hl
  exact h l hmem

/-- The lines the hub puts in have no line end, and no key starts like them. -/
structure Added (l : String) : Prop where
  newline : '\n' ∉ l.toList
  start : ∃ key, Inert key ∧ startsWith key (trim l.toList) = true

/-- What a stored text is made of. -/
theorem normalizeAgentConfig_eq_ok {opts : HookOptions} (hne : text ≠ "")
    (h : normalizeAgentConfig text nets opts = .ok out) :
    let kept := ((textLines text).foldl NormalScan.line .init).out
    ∃ inserted, inserted ≠ [] ∧ (∀ l ∈ inserted, Added l) ∧
      out =
        String.ofList
          (joined (kept.take (insertAt kept) ++ (inserted ++ kept.drop (insertAt kept)))) := by
  rw [normalizeAgentConfig, if_neg hne] at h
  obtain ⟨up, hup, h⟩ := Checked.bind_eq_ok.mp h
  obtain ⟨down, hdown, h⟩ := Checked.bind_eq_ok.mp h
  obtain rfl := Except.ok.inj h
  obtain ⟨iface, hargs, rfl⟩ := buildHubHook_eq_ok hup
  obtain ⟨iface', hargs', rfl⟩ := buildHubHook_eq_ok hdown
  refine ⟨(if ((textLines text).foldl NormalScan.line .init).hasTable then []
    else ["Table = off"]) ++
    [hookText true _, hookText false _], by
      simp, ?_, congrArg (fun ls => String.ofList (joined ls)) (List.append_assoc _ _ _)⟩
  intro l hl
  rcases List.mem_append.mp hl with hl | hl
  · split at hl
    · cases hl
    · rw [List.mem_singleton.mp hl]
      exact ⟨by decide, "Table", by decide, by decide⟩
  · rcases List.mem_pair.mp hl with rfl | rfl
    · exact ⟨newline_hookText (hargs.plain true) true, hook_start (hookText_isHook true _)⟩
    · exact ⟨newline_hookText (hargs'.plain false) false, hook_start (hookText_isHook false _)⟩

theorem keyHidden_normalize_iff {opts : HookOptions}
    (h : normalizeAgentConfig text nets opts = .ok out) :
    KeyHidden out ↔ KeyKnown text := by
  by_cases hne : text = ""
  · subst hne
    obtain rfl := Except.ok.inj h
    exact iff_of_true keyHidden_nil (keyHidden_nil.mono fun _ _ => .inl)
  obtain ⟨inserted, hins, hadded, rfl⟩ := normalizeAgentConfig_eq_ok hne h
  obtain ⟨lines, hlines, hiff⟩ := normalScan_hidden_iff (a := .top) (textLines text) .init rfl
  have hkept := kept_normalScan text
  rw [hlines] at hkept ⊢
  rw [show NormalScan.init.out = [] from rfl, List.nil_append] at hkept ⊢
  have hnewline : ∀ l ∈ lines.take (insertAt lines) ++ (inserted ++ lines.drop (insertAt lines)),
      '\n' ∉ l.toList := by
    intro l hl
    rcases List.mem_append.mp hl with hl | hl
    · exact (hkept l (List.mem_of_mem_take hl)).newline
    · rcases List.mem_append.mp hl with hl | hl
      · exact (hadded l hl).newline
      · exact (hkept l (List.mem_of_mem_drop hl)).newline
  have hneutral : ∀ l ∈ inserted.map String.toList, Neutral Above.line Hidden l := by
    intro l hl
    obtain ⟨l, hmem, rfl⟩ := List.mem_map.mp hl
    obtain ⟨key, hkey, hstart⟩ := (hadded l hmem).start
    exact hkey.neutral (fun _ _ h => h) hstart
  have hedited := Edited.insert hneutral ((lines.take (insertAt lines)).map String.toList)
    ((lines.drop (insertAt lines)).map String.toList)
  rw [KeyHidden, quickLines_joined (by simp [hins]) hnewline, List.map_append, List.map_append,
    ← hedited.throughout_iff,
    ← List.map_append, List.take_append_drop, hiff, keyKnown_iff]

/-! The rewrites that come before it. -/

theorem keyKnown_joined (ls : List String) (h : ∀ l ∈ ls, '\n' ∉ l.toList) :
    KeyKnown (String.ofList (joined ls)) ↔
    Throughout Above.line (fun a l => Hidden a l ∨ Masked a l) .top (ls.map String.toList) := by
  cases ls with
  | nil =>
    exact iff_of_true (keyHidden_nil.mono fun _ _ => .inl) .nil
  | cons l ls => rw [KeyKnown, quickLines_joined (List.cons_ne_nil _ _) h]

/-- A line stays, or lines that no key starts like are put in its place. -/
def Replaced (raw : String) (new : List String) : Prop :=
  new = [raw] ∨ (∃ key, Inert key ∧ startsWith key (trim raw.toList) = true) ∧ ∀ l ∈ new, Added l

/-- A scan that replaces lines one by one. -/
theorem keyKnown_scan {σ : Type} {f : σ → String → σ} {g : σ → List String}
    (hf : ∀ s raw, '\n' ∉ raw.toList → ∃ new, g (f s raw) = g s ++ new ∧ Replaced raw new) {s : σ}
    (hs : g s = []) (text : String) :
    KeyKnown (String.ofList (joined (g ((textLines text).foldl f s)))) ↔ KeyKnown text := by
  have hscan : ∀ (lines : List String) (s : σ), (∀ l ∈ lines, '\n' ∉ l.toList) → ∃ new,
      g (lines.foldl f s) = g s ++ new ∧ (∀ l ∈ new, '\n' ∉ l.toList) ∧
        Edited Above.line (fun a l => Hidden a l ∨ Masked a l) (lines.map String.toList)
          (new.map String.toList) := by
    intro lines
    induction lines with
    | nil => exact fun s _ => ⟨[], (List.append_nil _).symm, List.forall_mem_nil _, .nil⟩
    | cons raw lines ih =>
      intro s hlines
      rw [List.forall_mem_cons] at hlines
      obtain ⟨new, hnew, hreplaced⟩ := hf s raw hlines.1
      obtain ⟨rest, hrest, hnewline, hedited⟩ := ih (f s raw) hlines.2
      refine ⟨new ++ rest, by rw [List.foldl_cons, hrest, hnew, List.append_assoc], ?_, ?_⟩
      · refine List.forall_mem_append.mpr ⟨?_, hnewline⟩
        rcases hreplaced with rfl | ⟨-, hadded⟩
        · exact List.forall_mem_singleton.mpr hlines.1
        · exact fun l hl => (hadded l hl).newline
      · rcases hreplaced with rfl | ⟨⟨key, hkey, hstart⟩, hadded⟩
        · exact .keep _ hedited
        · rw [List.map_cons, List.map_append]
          refine .drop (hkey.neutral (fun _ _ => .inl) hstart) ?_
          clear hnew
          induction new with
          | nil => exact hedited
          | cons l new ihnew =>
            rw [List.forall_mem_cons] at hadded
            obtain ⟨key, hkey, hstart⟩ := hadded.1.start
            exact .add (hkey.neutral (fun _ _ => .inl) hstart) (ihnew hadded.2)
  obtain ⟨new, hnew, hnewline, hedited⟩ := hscan (textLines text) s newline_textLines
  rw [hs, List.nil_append] at hnew
  rw [hnew, keyKnown_joined new hnewline, keyKnown_iff, hedited.throughout_iff]

theorem keyKnown_rewriteAllowed (hnets : ∀ net ∈ nets, '\n' ∉ net.toList) (text : String) :
    KeyKnown (rewriteHubPeerAllowedIPs text nets) ↔ KeyKnown text := by
  refine keyKnown_scan (f := AllowedRewrite.line nets) (g := AllowedRewrite.out) (s := .init)
    (fun s raw _ => ?_) rfl text
  unfold AllowedRewrite.line
  split
  · exact ⟨[raw], rfl, .inl rfl⟩
  split
  · exact ⟨[raw], rfl, .inl rfl⟩
  split
  · next hline =>
    have hinert : ∃ key, Inert key ∧ startsWith key (trim raw.toList) = true :=
      ⟨"AllowedIPs", by decide, hline.2.2⟩
    split
    · exact ⟨[], (List.append_nil _).symm, .inr ⟨hinert, List.forall_mem_nil _⟩⟩
    · refine ⟨[allowedLine nets], rfl,
        .inr ⟨hinert, List.forall_mem_singleton.mpr ⟨newline_allowedLine hnets, ?_⟩⟩⟩
      exact ⟨"AllowedIPs", by decide, (allowedLine_scan nets).2.2⟩
  · exact ⟨[raw], rfl, .inl rfl⟩

theorem endpointParts_start {host port comment : List Char}
    (h : endpointParts t = some (host, port, comment)) :
    startsWith "Endpoint" t = true ∧ port.all Char.isDigit = true ∧ comment ⊆ t := by
  unfold endpointParts at h
  split at h
  · next hstart =>
    split at h
    · next rest hrest =>
      dsimp only at h
      split at h
      · next hparts =>
        obtain ⟨-, htail⟩ := Prod.mk.inj (Option.some.inj h)
        obtain ⟨rfl, rfl⟩ := Prod.mk.inj htail
        refine ⟨hstart, hparts.2.2.1, fun c hc => ?_⟩
        have hmem : c ∈ (t.drop 8).dropWhile isSpace :=
          hrest ▸ List.mem_cons_of_mem _ ((List.dropWhile_sublist _).subset hc)
        exact List.mem_of_mem_drop ((List.dropWhile_sublist _).subset hmem)
      · cases h
    · cases h
  · cases h

theorem replaced_endpointLine {host : String} (hhost : '\n' ∉ host.toList)
    (hraw : '\n' ∉ raw.toList) :
    Replaced raw [endpointLine host raw] := by
  unfold endpointLine
  split
  · exact .inl rfl
  · next old port comment hparts =>
    obtain ⟨hstart, hport, hcomment⟩ := endpointParts_start hparts
    split
    · exact .inl rfl
    split
    · exact .inl rfl
    · refine .inr ⟨⟨"Endpoint", by decide, hstart⟩,
        List.forall_mem_singleton.mpr ⟨?_, "Endpoint", by decide, ?_⟩⟩
      · have hdigits : '\n' ∉ port := fun hm => absurd (List.all_eq_true.mp hport _ hm) (by decide)
        have htail : '\n' ∉ (if comment = [] then "" else " " ++ String.ofList comment).toList := by
          split
          · decide
          · simp only [String.toList_append, String.toList_ofList, List.mem_append, not_or]
            exact ⟨by decide, fun hm => hraw (mem_of_mem_trim (hcomment hm))⟩
        simp only [String.toList_append, String.toList_ofList, List.mem_append, not_or]
        exact ⟨⟨⟨⟨by decide, hhost⟩, by decide⟩, hdigits⟩, htail⟩
      · generalize (if comment = [] then "" else " " ++ String.ofList comment) = tail
        have htext : ("Endpoint = " ++ host ++ ":" ++ String.ofList port ++ tail).toList =
            "Endpoin".toList ++ 't' ::
              (" = ".toList ++ (host ++ ":" ++ String.ofList port ++ tail).toList) := by
          simp [String.toList_append]
        obtain ⟨rest, hrest⟩ :=
          trim_append_cons (p := "Endpoin".toList) (c := 't') (by decide) (by decide)
          (" = ".toList ++ (host ++ ":" ++ String.ofList port ++ tail).toList)
        rw [htext, hrest]
        rfl

theorem newline_sanitizeHubHost {wgHubHost host : String}
    (h : sanitizeHubHost wgHubHost = some host) : '\n' ∉ host.toList := by
  unfold sanitizeHubHost at h
  dsimp only at h
  split at h
  · cases h
  · next hchars =>
    obtain rfl := Option.some.inj h
    rw [Bool.or_eq_true, not_or, Bool.not_eq_true', Bool.not_eq_false] at hchars
    have hv : '\n' ∉ trim wgHubHost.toList :=
      fun hm => absurd (List.all_eq_true.mp hchars.2 _ hm) (by decide)
    rw [String.toList_ofList]
    split
    · rw [List.cons_append, List.mem_cons, List.mem_append, not_or, not_or]
      exact ⟨by decide, hv, by decide⟩
    · exact hv

theorem keyKnown_rewriteEndpoint {wgHubHost : String} (text : String) :
    KeyKnown (rewriteHubPeerEndpoint text (sanitizeHubHost wgHubHost)) ↔ KeyKnown text := by
  unfold rewriteHubPeerEndpoint
  split
  · next host hhost =>
    split
    · exact Iff.rfl
    refine keyKnown_scan (f := EndpointScan.line host) (g := EndpointScan.out) (s := .init)
      (fun s raw hraw => ?_) rfl text
    unfold EndpointScan.line
    split
    · exact ⟨[raw], rfl, .inl rfl⟩
    split
    · exact ⟨[raw], rfl, .inl rfl⟩
    split
    · exact ⟨_, rfl, replaced_endpointLine (newline_sanitizeHubHost hhost) hraw⟩
    · exact ⟨[raw], rfl, .inl rfl⟩
  · exact Iff.rfl

/-! The calls. -/

theorem newline_cidr {net : String} (h : isCidrText net = true) : '\n' ∉ net.toList :=
  fun hm => absurd ((Word.of_isCidrText h).1.space '\n' hm) (by decide)

theorem KeyHidden.known (h : KeyHidden text) : KeyKnown text := h.mono fun _ _ => .inl

theorem keyHidden_rewritten_iff {bound : Bool} {name : Option String}
    (h : rewritten bound text name = .ok out) :
    KeyHidden out ↔ KeyKnown text := by
  cases bound with
  | true =>
    rw [rewritten_true] at h
    exact keyHidden_normalize_iff h
  | false =>
    rw [rewritten_false] at h
    exact (keyHidden_normalize_iff h).trans (keyKnown_rewriteAllowed newline_tunnelOnlyIPs text)

theorem mem_computeHubPeerAllowedIPs {net subnet : String} :
    net ∈ computeHubPeerAllowedIPs subnet nets ↔ net = subnet ∨ net ∈ nets := by
  rw [computeHubPeerAllowedIPs, List.mem_insertionSort, List.mem_eraseDups, List.mem_cons]

theorem KeyHidden.synced {inp : SyncInput} {wgInterface : Option String} (htext : KeyHidden text)
    (h : syncedText inp wgInterface text = .ok out) : KeyHidden out := by
  obtain ⟨iface, -, h⟩ := Checked.bind_eq_ok.mp h
  refine (keyHidden_normalize_iff h).mpr ?_
  by_cases hblank : rewriteHubPeerEndpoint
    (if [','].intercalate ((computeHubPeerAllowedIPs (tunnelSubnet text).render
      inp.otherSiteNets).map String.toList) ≠ sortedJoin (parseHubPeerAllowedIPs text) then
        rewriteHubPeerAllowedIPs text
          (computeHubPeerAllowedIPs (tunnelSubnet text).render inp.otherSiteNets)
      else text) (sanitizeHubHost inp.wgHubHost) = ""
  · rw [hblank]
    exact keyHidden_nil.known
  -- the networks of the other sites have passed the check of a network
  have hcidr := (postUpNets_normalizeAgentConfig hblank h).2
  rw [keyKnown_rewriteEndpoint]
  split
  · refine (keyKnown_rewriteAllowed (fun net hnet => ?_) text).mpr htext.known
    rcases mem_computeHubPeerAllowedIPs.mp hnet with rfl | hnet
    · exact newline_render _
    · exact newline_cidr (hcidr net (List.mem_append_left _ ((List.mem_insertionSort _).mpr hnet)))
  · exact htext.known

/-- The stored config has no key of its interface. -/
def StoresNoKey (agent : StoredAgent) : Prop :=
  ∀ text, agent.configText = some text → KeyHidden text

variable {agent agent' : StoredAgent} {act : Act} {acts : List Renewal} {b : Bool}

theorem storesNoKey_iff (h : agent.configText = some text) :
    StoresNoKey agent ↔ KeyHidden text := by
  rw [StoresNoKey, h]
  simp

/-- An update rewrites the stored text. -/
theorem configText_of_rewrites {linkNames : List String} {data : AgentPatch}
    (h : (Act.update linkNames data).rewrites agent = some (b, text)) :
    agent.configText = some text := by
  rw [Act.rewrites] at h
  split at h
  · next hconfig =>
    have hsome := (Option.filter_eq_some_iff.mp hconfig).1
    split at h
    · cases h
      exact hsome
    · split at h
      · cases h
        exact hsome
      · cases h
  · cases h

theorem StoresNoKey.renew (h : StoresNoKey agent) (act : Renewal) :
    StoresNoKey (renew agent act) := by
  cases act with
  | update linkNames data =>
    rw [AgentSync.renew, next]
    split
    · next agent' happly =>
      rcases stores_apply happly with ⟨-, hsame⟩ | ⟨b, text, name, out, hrewrites, hstored, hout⟩
      · rwa [StoresNoKey, hsame]
      · have hknown := (h text (configText_of_rewrites hrewrites)).known
        exact (storesNoKey_iff hstored).mpr ((keyHidden_rewritten_iff hout).mpr hknown)
    · exact h
  | sync inp =>
    rw [AgentSync.renew]
    split
    · next text hconfig =>
      have htext := h text (Option.filter_eq_some_iff.mp hconfig).1
      split
      · split
        · next out hout => exact (storesNoKey_iff rfl).mpr (htext.synced hout)
        · exact h
      · exact h
    · exact h

theorem StoresNoKey.run (h : StoresNoKey agent) (acts : List Renewal) :
    StoresNoKey (acts.foldl AgentSync.renew agent) := by
  induction acts generalizing agent with
  | nil => exact h
  | cons act acts ih => exact ih (h.renew act)

theorem storesNoKey_upload_iff (hnew : agent.config = none) (htext : trim text.toList ≠ [])
    (h : uploadConfig agent (.text text) = .ok agent') : StoresNoKey agent' ↔ KeyKnown text := by
  have hrewrites : (Act.upload (.text text)).rewrites agent = some (agent.bound, text) := by
    refine if_neg (not_or.mpr ⟨?_, htext⟩)
    rw [hnew]
    exact Bool.false_ne_true
  rcases stores_uploadConfig h with ⟨hnone, -⟩ | ⟨b, t, name, out, hsome, hstored, hout⟩
  · rw [hnone] at hrewrites
    cases hrewrites
  · obtain ⟨rfl, rfl⟩ := Prod.mk.inj (Option.some.inj (hsome.symm.trans hrewrites))
    exact (storesNoKey_iff hstored).trans (keyHidden_rewritten_iff hout)

/-- No text that is ever made of an upload has a key in it exactly when each key of the upload is
one the hub knows. -/
theorem key_hidden_iff (hnew : agent.config = none) (htext : trim text.toList ≠ [])
    (h : uploadConfig agent (.text text) = .ok agent') :
    (∀ acts : List Renewal, StoresNoKey (acts.foldl renew agent')) ↔ KeyKnown text := by
  rw [← storesNoKey_upload_iff hnew htext h]
  constructor
  · intro hall
    exact hall []
  · intro hstored acts
    exact hstored.run acts

/-! An upload as `wg-quick` writes it, and one with the key in lower case. -/

theorem key_hidden_iff_office :
    ∃ agent', uploadConfig (enrolled none) (.text (tunnelConf "10.10.0.0/24")) = .ok agent' ∧
    ∀ acts : List Renewal, StoresNoKey (acts.foldl renew agent') := by
  have hok : (uploadConfig (enrolled none) (.text (tunnelConf "10.10.0.0/24"))).toOption.isSome =
      true := by decide +kernel
  cases hupload : uploadConfig (enrolled none) (.text (tunnelConf "10.10.0.0/24")) with
  | error e =>
    rw [hupload] at hok
    cases hok
  | ok agent' =>
    exact ⟨agent', rfl, (key_hidden_iff (by decide) (by decide +kernel) hupload).mpr
      (by decide +kernel)⟩

def lowerCaseConf : String := "[Interface]\nprivatekey = k=\nAddress = 10.10.0.2/24"

theorem lower_case_key_stored :
    ¬ ∀ (agent agent' : StoredAgent) (text : String) (acts : List Renewal), agent.config = none →
    uploadConfig agent (.text text) = .ok agent' → StoresNoKey (acts.foldl renew agent') := by
  intro h
  have hok : (uploadConfig (enrolled none) (.text lowerCaseConf)).toOption.isSome = true := by
    decide +kernel
  cases hupload : uploadConfig (enrolled none) (.text lowerCaseConf) with
  | error e =>
    rw [hupload] at hok
    cases hok
  | ok agent' =>
    have hknown := (storesNoKey_upload_iff (by decide) (by decide +kernel) hupload).mp
      (h (enrolled none) agent' lowerCaseConf [] (by decide) hupload)
    revert hknown
    decide +kernel

end FloppyGuard.AgentSync
