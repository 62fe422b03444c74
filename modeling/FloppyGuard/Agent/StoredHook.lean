import FloppyGuard.Agent.NormalConfig
import FloppyGuard.Lib.Checked
import FloppyGuard.WireGuard.HookCmds

/-! The networks that the `PostUp` of a stored config routes into the tunnel or masquerades. -/
namespace FloppyGuard.AgentSync

open Text WireGuard

/-! The stored hook, as a shell gets it. -/

def postUps (text : String) : List (List Char) :=
  ((textLines text).map fun l => trim l.toList).filter (startsWith "PostUp")

def words (cmd : List Char) : Command := ((cmd.splitOn ' ').filter (· ≠ [])).map String.ofList

def postUpCommands (text : String) : List Command :=
  (postUps text).flatMap fun t => (semicolonParts (trim (afterEq t))).map words

/-- The network of an `ip route add`. -/
def routed : Command → Option String
  | "ip" :: "route" :: "add" :: net :: _ => some net
  | _ => none

def sourceOf : Command → Option String
  | "-s" :: net :: _ => some net
  | _ :: cmd => sourceOf cmd
  | [] => none

/-- The source a command masquerades. -/
def masqueraded (cmd : Command) : Option String := if "MASQUERADE" ∈ cmd then sourceOf cmd else none

def commandNets (cmd : Command) : List String := (routed cmd).toList ++ (masqueraded cmd).toList

def postUpNets (text : String) : List String := (postUpCommands text).flatMap commandNets

def shortPrefix (net : String) : Bool :=
  ((afterSlash net.toList).bind (number 2)).any (· < minNetworkPrefix)

/-- No network with a prefix shorter than the minimum is routed or masqueraded. -/
def KeepsDefaultRoute (text : String) : Prop := ∀ net ∈ postUpNets text, shortPrefix net = false

instance (text : String) : Decidable (KeepsDefaultRoute text) :=
  inferInstanceAs (Decidable (∀ _ ∈ _, _))

variable {text out iface subnet : String} {nets locals remotes peers ls xs ys : List String}
  {opts : HookOptions}
  {cmd : Command} {cmds : List Command}

/-! Words. -/

/-- A text without blanks and semicolons. -/
structure Word (w : String) : Prop where
  ne : w ≠ ""
  space : ∀ c ∈ w.toList, isSpace c = false
  semicolon : ';' ∉ w.toList

theorem Word.of_isCidrText {net : String} (h : isCidrText net = true) :
    Word net ∧ ∃ addr p n, net.toList = addr ++ '/' :: p ∧ '/' ∉ p ∧ number 2 p = some n := by
  unfold isCidrText at h
  split at h
  · next addr p hs =>
    simp only [Bool.and_eq_true] at h
    obtain ⟨n, hn⟩ := Option.isSome_iff_exists.mp h.2
    have hcut : net.toList = addr ++ '/' :: p := by
      have hjoin : ['/'].intercalate (net.toList.splitOn '/') = net.toList :=
        List.intercalate_splitOn '/'
      rw [← hjoin, hs]
      simp [List.intercalate]
    have hp : '/' ∉ p := not_mem_of_mem_splitOn p (by rw [hs]; exact List.mem_pair.mpr (.inr rfl))
    have haddr : ∀ c ∈ addr, c = '.' ∨ c.isDigit = true := by
      intro c hc
      have hgroups := h.1
      simp only [isDotted, Bool.and_eq_true, List.all_eq_true] at hgroups
      rcases mem_splitOn (a := '.') hc with rfl | ⟨group, hgroup, hc⟩
      · exact .inl rfl
      · obtain ⟨k, hk⟩ := Option.isSome_iff_exists.mp (hgroups.2 group hgroup)
        exact .inr ((digits_of_number hk).2 c hc)
    have hall : ∀ c ∈ net.toList, c = '.' ∨ c = '/' ∨ c.isDigit = true := by
      intro c hc
      rw [hcut, List.mem_append, List.mem_cons] at hc
      rcases hc with hc | rfl | hc
      · exact (haddr c hc).imp_right .inr
      · exact .inr (.inl rfl)
      · exact .inr (.inr ((digits_of_number hn).2 c hc))
    refine ⟨⟨?_, fun c hc => ?_, fun hc => ?_⟩, addr, p, n, hcut, hp, hn⟩
    · rintro rfl
      simp at hcut
    · rcases hall c hc with rfl | rfl | hc
      · decide
      · decide
      · exact isSpace_eq_false_of_isDigit hc
    · exact absurd (hall ';' hc) (by decide)
  · cases h

/-- What the name of an interface is made of. -/
theorem of_sanitizeWgInterface {name : Option String} (h : sanitizeWgInterface name = .ok iface) :
    Word iface ∧ ∃ digits, iface.toList = 'w' :: 'g' :: digits := by
  unfold sanitizeWgInterface at h
  dsimp only at h
  split at h
  · next hif =>
    obtain rfl := Except.ok.inj h
    generalize (name.filter (· ≠ "")).getD "wg0" = n at hif
    rw [Bool.and_eq_true] at hif
    obtain ⟨digits, hdigits⟩ := List.isPrefixOf_iff_prefix.mp hif.1
    have hn : n.toList = 'w' :: 'g' :: digits := hdigits.symm
    obtain ⟨k, hk⟩ := Option.isSome_iff_exists.mp hif.2
    rw [hn] at hk
    have hd : ∀ c ∈ digits, c.isDigit = true := (digits_of_number hk).2
    refine ⟨⟨?_, fun c hc => ?_, fun hc => ?_⟩, digits, hn⟩
    · rintro rfl
      cases hn
    · rw [hn, List.mem_cons, List.mem_cons] at hc
      rcases hc with rfl | rfl | hc
      · decide
      · decide
      · exact isSpace_eq_false_of_isDigit (hd c hc)
    · rw [hn, List.mem_cons, List.mem_cons] at hc
      rcases hc with hc | hc | hc
      · exact absurd hc (by decide)
      · exact absurd hc (by decide)
      · exact absurd (hd ';' hc) (by decide)
  · cases h

theorem isCidrText_of_assertCIDR {net : String} (h : assertCIDR net = .ok ()) :
    isCidrText net = true := by
  unfold assertCIDR at h
  split at h
  · next hc => exact hc
  · cases h

theorem isCidrText_of_forM {u : Unit} (h : nets.forM assertCIDR = .ok u) :
    ∀ net ∈ nets, isCidrText net = true := by
  induction nets with
  | nil => exact List.forall_mem_nil _
  | cons n nets ih =>
    rw [List.forM_eq_forM, List.forM_cons] at h
    obtain ⟨_, hn, h⟩ := Checked.bind_eq_ok.mp h
    exact List.forall_mem_cons.mpr ⟨isCidrText_of_assertCIDR hn, ih h⟩

/-- What the checks of a hook let through. -/
structure HookArgs (iface subnet : String) (locals remotes peers : List String) : Prop where
  iface : Word iface ∧ ∃ digits, iface.toList = 'w' :: 'g' :: digits
  nets : ∀ net ∈ subnet :: locals ++ remotes ++ peers, isCidrText net = true

theorem buildHubHook_eq_ok {isUp : Bool}
    (h : buildHubHook isUp subnet remotes peers opts = .ok out) :
    ∃ iface, HookArgs iface subnet opts.localNets remotes peers ∧
      out =
        "; ".intercalate
          ((hubCommands isUp iface subnet opts.localNets remotes peers).map Command.text) := by
  obtain ⟨iface, hiface, h⟩ := Checked.bind_eq_ok.mp h
  obtain ⟨_, hsubnet, h⟩ := Checked.bind_eq_ok.mp h
  obtain ⟨_, hlocals, h⟩ := Checked.bind_eq_ok.mp h
  obtain ⟨_, hremotes, h⟩ := Checked.bind_eq_ok.mp h
  obtain ⟨_, hpeers, h⟩ := Checked.bind_eq_ok.mp h
  refine ⟨iface, ⟨of_sanitizeWgInterface hiface, fun net hnet => ?_⟩, (Except.ok.inj h).symm⟩
  simp only [List.cons_append, List.mem_cons, List.mem_append] at hnet
  rcases hnet with rfl | (hnet | hnet) | hnet
  · exact isCidrText_of_assertCIDR hsubnet
  · exact isCidrText_of_forM hlocals net hnet
  · exact isCidrText_of_forM hremotes net hnet
  · exact isCidrText_of_forM hpeers net hnet

/-! A command and its text. -/

/-- A value without outer white space behind a key. -/
theorem trim_keyed {key v : List Char} (hkey : ∀ c ∈ key.head?, isSpace c = false) (hne : v ≠ [])
    (hv : trim v = v) :
    trim (key ++ v) = key ++ v := by
  have hhead : ∀ c ∈ v.head?, isSpace c = false := hv ▸ head?_trim
  have hlast : ∀ c ∈ v.getLast?, isSpace c = false := hv ▸ getLast?_trim
  rw [trim_append hne hhead hlast, dropWhile_eq_self hkey]

theorem intercalate_ne_nil {sep l : List Char} {rest : List (List Char)} (h : l ≠ []) :
    sep.intercalate (l :: rest) ≠ [] := by
  intro he
  have hhead : (sep.intercalate (l :: rest)).head? = l.head? := head?_intercalate h
  rw [he] at hhead
  exact h (List.head?_eq_none_iff.mp hhead.symm)

/-- A command whose words can be told apart. -/
def Plain (cmd : Command) : Prop := cmd ≠ [] ∧ ∀ w ∈ cmd, Word w

theorem Command.text_toList (cmd : Command) :
    cmd.text.toList = [' '].intercalate (cmd.map String.toList) := by
  rw [Command.text, String.toList_intercalate]
  rfl

theorem Word.ends {w : String} (h : Word w) : w.toList ≠ [] ∧ trim w.toList = w.toList :=
  ⟨mt String.toList_eq_nil_iff.mp h.ne, trim_of_forall h.space⟩

theorem Plain.words_text (h : Plain cmd) : words cmd.text.toList = cmd := by
  have hsplit : ([' '].intercalate (cmd.map String.toList)).splitOn ' ' =
      cmd.map String.toList := by
    refine List.splitOn_intercalate ' ' (fun l hl => ?_) (by simpa using h.1)
    obtain ⟨w, hw, rfl⟩ := List.mem_map.mp hl
    exact fun hc => absurd ((h.2 w hw).space ' ' hc) (by decide)
  have hfilter : (cmd.map String.toList).filter (· ≠ []) = cmd.map String.toList := by
    refine List.filter_eq_self.mpr fun l hl => ?_
    obtain ⟨w, hw, rfl⟩ := List.mem_map.mp hl
    exact decide_eq_true (h.2 w hw).ends.1
  rw [words, Command.text_toList, hsplit, hfilter, List.map_map]
  simp

theorem Plain.trim_text (h : Plain cmd) :
    cmd.text.toList ≠ [] ∧ trim cmd.text.toList = cmd.text.toList := by
  obtain ⟨w, cmd, rfl⟩ := List.exists_cons_of_ne_nil h.1
  have hends : ∀ l ∈ (w :: cmd).map String.toList, l ≠ [] ∧ trim l = l := by
    intro l hl
    obtain ⟨w, hw, rfl⟩ := List.mem_map.mp hl
    exact (h.2 w hw).ends
  rw [Command.text_toList]
  exact ⟨intercalate_ne_nil (hends _ List.mem_cons_self).1, trim_intercalate _ hends⟩

/-- What the text of a command has no place for. -/
theorem Plain.not_mem_text (h : Plain cmd) {c : Char} (hc : c ≠ ' ')
    (hword : ∀ w, Word w → c ∉ w.toList) :
    c ∉ cmd.text.toList := by
  rw [Command.text_toList]
  intro hm
  rcases mem_of_mem_intercalate hm with hm | ⟨l, hl, hm⟩
  · exact hc (List.mem_singleton.mp hm)
  · obtain ⟨w, hw, rfl⟩ := List.mem_map.mp hl
    exact hword w (h.2 w hw) hm

/-- The commands of a hook line are those it was written with. -/
theorem words_hookParts (hcmds : cmds ≠ []) (h : ∀ cmd ∈ cmds, Plain cmd) (isUp : Bool) :
    (hookParts (hookText isUp ("; ".intercalate (cmds.map Command.text)))).map words = cmds := by
  have htexts : cmds.map Command.text = (cmds.map fun cmd => cmd.text.toList).map
      String.ofList := by simp
  have hends : ∀ c ∈ cmds.map fun cmd => cmd.text.toList, c ≠ [] ∧ trim c = c := by
    intro c hc
    obtain ⟨cmd, hcmd, rfl⟩ := List.mem_map.mp hc
    exact (h cmd hcmd).trim_text
  rw [htexts, hookParts_hookText hends, if_neg (by simpa using hcmds), List.flatMap_map,
    List.map_flatMap]
  clear htexts hends hcmds
  induction cmds with
  | nil => rfl
  | cons cmd cmds ih =>
    rw [List.forall_mem_cons] at h
    rw [List.flatMap_cons, ih h.2,
      semicolonParts_singleton h.1.trim_text.2 (h.1.not_mem_text (by decide) fun w hw =>
        hw.semicolon),
      List.map_singleton, h.1.words_text, List.singleton_append]

/-! The commands of the hub. -/

instance (w : String) : Decidable (Word w) :=
  decidable_of_iff (w ≠ "" ∧ (∀ c ∈ w.toList, isSpace c = false) ∧ ';' ∉ w.toList)
    ⟨fun h => ⟨h.1, h.2.1, h.2.2⟩, fun h => ⟨h.ne, h.space, h.semicolon⟩⟩

namespace HookArgs

theorem subnet_mem : subnet ∈ subnet :: locals ++ remotes ++ peers := by simp

variable (h : HookArgs iface subnet locals remotes peers)
include h

theorem word {net : String} (hnet : net ∈ subnet :: locals ++ remotes ++ peers) : Word net :=
  (Word.of_isCidrText (h.nets net hnet)).1

theorem plain (isUp : Bool) :
    ∀ cmd ∈ hubCommands isUp iface subnet locals remotes peers, Plain cmd := by
  have hverb : Word (if isUp then "-A" else "-D") := by cases isUp <;> decide
  have hroute : Word (if isUp then "add" else "del") := by cases isUp <;> decide
  have hiface := h.iface.1
  have hsubnet := h.word subnet_mem
  have haccept : ∀ direction, Word direction → Plain (acceptCmd isUp direction iface) := by
    intro direction hdirection
    refine ⟨List.cons_ne_nil _ _, ?_⟩
    simp only [acceptCmd, List.forall_mem_cons]
    exact ⟨by decide, hverb, by decide, hdirection, hiface, by decide, by decide,
      List.forall_mem_nil _⟩
  have hmasquerade : ∀ net, Word net → Plain (masqueradeCmd isUp iface net) := by
    intro net hnet
    refine ⟨List.cons_ne_nil _ _, ?_⟩
    simp only [masqueradeCmd, List.forall_mem_cons]
    exact ⟨by decide, by decide, by decide, hverb, by decide, by decide, by decide, hiface,
      by decide, hnet, by decide, by decide, List.forall_mem_nil _⟩
  intro cmd hcmd
  simp only [hubCommands, List.append_assoc, List.cons_append, List.nil_append, List.mem_append,
    List.mem_cons, List.mem_map] at hcmd
  rcases hcmd with hcmd | rfl | rfl | ⟨net, hnet, rfl⟩ | rfl | ⟨net, hnet, rfl⟩ | ⟨net, hnet, rfl⟩
  · cases isUp with
    | true =>
      obtain rfl := List.mem_singleton.mp hcmd
      refine ⟨List.cons_ne_nil _ _, ?_⟩
      decide
    | false => cases hcmd
  · exact haccept "-i" (by decide)
  · exact haccept "-o" (by decide)
  · refine ⟨List.cons_ne_nil _ _, ?_⟩
    simp only [returnCmd, List.forall_mem_cons]
    exact ⟨by decide, by decide, by decide, hverb, by decide, by decide, hsubnet, by decide,
      h.word (by simp [hnet]), by decide, by decide, List.forall_mem_nil _⟩
  · exact hmasquerade subnet hsubnet
  · exact hmasquerade net (h.word (by simp [hnet]))
  · refine ⟨List.cons_ne_nil _ _, ?_⟩
    simp only [tunnelRouteCmd, List.forall_mem_cons]
    exact ⟨by decide, by decide, hroute, h.word (by simp [hnet]), by decide, hiface, by decide,
      by decide, by decide, List.forall_mem_nil _⟩

/-- A word that is neither a network nor the name of an interface. -/
theorem ne_of_mem {net w : String} (hnet : net ∈ subnet :: locals ++ remotes ++ peers)
    (hw : isCidrText w = false) : net ≠ w := by
  rintro rfl
  rw [h.nets _ hnet] at hw
  cases hw

theorem iface_ne {w : String} (hw : startsWith "wg" w.toList = false) : iface ≠ w := by
  rintro rfl
  obtain ⟨digits, hdigits⟩ := h.iface.2
  rw [hdigits] at hw
  simp [startsWith] at hw

end HookArgs

/-- Routed or masqueraded are the tunnel subnet, the remote networks and the networks of the hub
peer. -/
theorem commandNets_hubCommands (h : HookArgs iface subnet locals remotes peers) :
    (hubCommands true iface subnet locals remotes peers).flatMap commandNets = subnet :: remotes ++
      peers := by
  have hiface : iface ≠ "MASQUERADE" ∧ iface ≠ "-s" :=
    ⟨h.iface_ne (by decide), h.iface_ne (by decide)⟩
  have hmasq : ∀ net ∈ subnet :: locals ++ remotes ++ peers, net ≠ "MASQUERADE" := fun net hnet =>
    h.ne_of_mem hnet (by decide)
  have haccept : ∀ direction ∈ ["-i", "-o"], commandNets (acceptCmd true direction iface) = [] := by
    intro direction hdirection
    have hne : direction ≠ "MASQUERADE" := by
      rintro rfl
      simp at hdirection
    simp [commandNets, acceptCmd, routed, masqueraded, hiface.1.symm, hne.symm]
  have hmasquerade : ∀ net, commandNets (masqueradeCmd true iface net) = [net] := by
    intro net
    simp [commandNets, masqueradeCmd, routed, masqueraded, sourceOf, hiface.2]
  have hlocals : locals.flatMap (fun net => commandNets (returnCmd true subnet net)) = [] := by
    refine List.flatMap_eq_nil_iff.mpr fun net hnet => ?_
    simp [commandNets, returnCmd, routed, masqueraded, (hmasq subnet HookArgs.subnet_mem).symm,
      (hmasq net (by simp [hnet])).symm]
  have hpeers : peers.flatMap (fun net => commandNets (tunnelRouteCmd true iface net)) = peers := by
    have hone : ∀ net ∈ peers, commandNets (tunnelRouteCmd true iface net) = [net] := by
      intro net hnet
      simp [commandNets, tunnelRouteCmd, routed, masqueraded, hiface.1.symm,
        (hmasq net (by simp [hnet])).symm]
    rw [List.flatMap_congr hone, List.flatMap_singleton']
  have hsysctl : commandNets ["sysctl", "-w", "net.ipv4.ip_forward=1"] = [] := by decide
  simp only [hubCommands, if_true, List.flatMap_append, List.flatMap_cons, List.flatMap_nil,
    List.flatMap_map, hsysctl,
    haccept _ List.mem_cons_self, haccept "-o" (by simp), hlocals, hmasquerade, hpeers,
      List.flatMap_singleton', List.nil_append,
    List.append_nil, List.singleton_append]

/-! The lines of a stored text. -/

theorem newline_textLines : ∀ l ∈ textLines text, '\n' ∉ l.toList := by
  intro l hl
  obtain ⟨chars, hchars, rfl⟩ := List.mem_map.mp hl
  rw [String.toList_ofList]
  exact newline_not_mem chars hchars

/-- Up to white space the lines of a stored text are the lines it was joined from. -/
theorem textLines_joined (hne : ls ≠ []) (h : ∀ l ∈ ls, '\n' ∉ l.toList) :
    (textLines (String.ofList (joined ls))).map (fun l => trim l.toList) = ls.map fun l =>
      trim l.toList := by
  have hlines : ∀ l ∈ ls.map String.toList, '\n' ∉ l := by
    intro l hl
    obtain ⟨l, hmem, rfl⟩ := List.mem_map.mp hl
    exact h l hmem
  have hsplit := splitLines_intercalate (by simpa using hne) hlines
  rw [List.map_map] at hsplit
  rw [textLines, String.toList_ofList, joined, List.map_map]
  simpa [Function.comp_def] using hsplit

theorem NormalScan.out_line (s : NormalScan) (raw : String) :
    (s.line raw).out = s.out ++ ["PrivateKey = (hidden)"] ∨
    (s.line raw).out = s.out ∨ isHook true raw = false ∧ (s.line raw).out = s.out ++ [raw] := by
  unfold NormalScan.line
  dsimp only
  generalize (if trim raw.toList = "[Interface]".toList then true else if isHeader raw then false
    else s.inInterface) = b
  split
  · exact .inl rfl
  · split
    · exact .inr (.inl rfl)
    · next hhook =>
      rw [Bool.or_eq_true, not_or, Bool.not_eq_true] at hhook
      exact .inr (.inr ⟨hhook.1, rfl⟩)

/-- A line that is no hook. -/
structure Kept (l : String) : Prop where
  newline : '\n' ∉ l.toList
  up : isHook true l = false

theorem kept_normalScan (text : String) :
    ∀ l ∈ ((textLines text).foldl NormalScan.line .init).out, Kept l := by
  have hscan : ∀ (lines : List String) (s : NormalScan), (∀ l ∈ lines, '\n' ∉ l.toList) →
    (∀ l ∈ s.out, Kept l) →
      ∀ l ∈ (lines.foldl NormalScan.line s).out, Kept l := by
    intro lines
    induction lines with
    | nil => exact fun s _ hs => hs
    | cons raw lines ih =>
      intro s hlines hs
      rw [List.forall_mem_cons] at hlines
      refine ih _ hlines.2 ?_
      rcases s.out_line raw with hout | hout | ⟨hhook, hout⟩
      · rw [hout, List.forall_mem_append]
        exact ⟨hs, List.forall_mem_singleton.mpr ⟨by decide, by decide⟩⟩
      · rwa [hout]
      · rw [hout, List.forall_mem_append]
        exact ⟨hs, List.forall_mem_singleton.mpr ⟨hlines.1, hhook⟩⟩
  exact hscan _ .init newline_textLines nofun

/-- A hook line of the hub has no line end. -/
theorem newline_hookText (h : ∀ cmd ∈ cmds, Plain cmd) (isUp : Bool) :
    '\n' ∉ (hookText isUp ("; ".intercalate (cmds.map Command.text))).toList := by
  have hname : '\n' ∉ ((if isUp then "PostUp" else "PostDown") ++ " = ").toList := by
    cases isUp <;> decide
  rw [hookText, String.toList_append, List.mem_append, not_or]
  refine ⟨hname, fun hm => ?_⟩
  rw [String.toList_intercalate] at hm
  rcases mem_of_mem_intercalate hm with hm | ⟨l, hl, hm⟩
  · exact absurd hm (by decide)
  · rw [List.map_map] at hl
    obtain ⟨cmd, hcmd, rfl⟩ := List.mem_map.mp hl
    refine (h cmd hcmd).not_mem_text (by decide) (fun w hw hc => ?_) hm
    exact absurd (hw.space '\n' hc) (by decide)

theorem trim_hookText (hcmds : cmds ≠ []) (h : ∀ cmd ∈ cmds, Plain cmd) :
    trim (hookText true ("; ".intercalate (cmds.map Command.text))).toList =
      (hookText true ("; ".intercalate (cmds.map Command.text))).toList := by
  have hends : ∀ l ∈ (cmds.map Command.text).map String.toList, l ≠ [] ∧ trim l = l := by
    intro l hl
    rw [List.map_map] at hl
    obtain ⟨cmd, hcmd, rfl⟩ := List.mem_map.mp hl
    exact (h cmd hcmd).trim_text
  rw [hookText, String.toList_append, String.toList_intercalate]
  refine trim_keyed (by decide) ?_ (trim_intercalate _ hends)
  obtain ⟨cmd, cmds, rfl⟩ := List.exists_cons_of_ne_nil hcmds
  exact intercalate_ne_nil (hends _ List.mem_cons_self).1

/-- The only `PostUp` of a stored text is the one the hub has written. -/
theorem postUpCommands_joined (hcmds : cmds ≠ []) (hplain : ∀ cmd ∈ cmds, Plain cmd)
    (hnewline : ∀ l ∈ ls, '\n' ∉ l.toList)
    (hls : ls.filter (isHook true) = [hookText true ("; ".intercalate (cmds.map Command.text))]) :
    postUpCommands (String.ofList (joined ls)) = cmds := by
  have hne : ls ≠ [] := by
    rintro rfl
    cases hls
  have hposts : postUps (String.ofList (joined ls)) =
      [(hookText true ("; ".intercalate (cmds.map Command.text))).toList] := by
    rw [postUps, textLines_joined hne hnewline, List.filter_map]
    change (ls.filter (isHook true)).map _ = _
    rw [hls, List.map_singleton, trim_hookText hcmds hplain]
  rw [postUpCommands, hposts, List.flatMap_singleton]
  exact words_hookParts hcmds hplain true

theorem hubCommands_ne_nil (isUp : Bool) :
    hubCommands isUp iface subnet locals remotes peers ≠ [] := by
  simp [hubCommands]

theorem postUpNets_normalizeAgentConfig (hne : text ≠ "")
    (h : normalizeAgentConfig text remotes opts = .ok out) :
    postUpNets out = (tunnelSubnet text).render :: remotes ++ peerNets text ∧
      ∀ net ∈ remotes ++ peerNets text, isCidrText net = true := by
  rw [normalizeAgentConfig, if_neg hne] at h
  obtain ⟨up, hup, h⟩ := Checked.bind_eq_ok.mp h
  obtain ⟨down, hdown, h⟩ := Checked.bind_eq_ok.mp h
  obtain rfl := Except.ok.inj h
  obtain ⟨iface, hargs, rfl⟩ := buildHubHook_eq_ok hup
  obtain ⟨iface', hargs', rfl⟩ := buildHubHook_eq_ok hdown
  have hkept := kept_normalScan text
  generalize (textLines text).foldl NormalScan.line .init = s at hkept
  have hcommands : postUpCommands (String.ofList (joined (s.out.take (insertAt s.out) ++
      ((if s.hasTable then [] else ["Table = off"]) ++
        [hookText true
          ("; ".intercalate
            ((hubCommands true iface (tunnelSubnet text).render opts.localNets remotes
            (peerNets text)).map Command.text)),
          hookText false
            ("; ".intercalate
              ((hubCommands false iface' (tunnelSubnet text).render opts.localNets remotes
            (peerNets text)).map Command.text))]) ++ s.out.drop (insertAt s.out)))) =
      hubCommands true iface (tunnelSubnet text).render opts.localNets remotes (peerNets text) := by
    refine postUpCommands_joined (hubCommands_ne_nil true) (hargs.plain true) ?_ ?_
    · intro l hl
      simp only [List.append_assoc, List.mem_append, List.mem_cons, List.not_mem_nil, or_false]
        at hl
      rcases hl with hl | hl | (rfl | rfl) | hl
      · exact (hkept l (List.mem_of_mem_take hl)).newline
      · split at hl
        · cases hl
        · rw [List.mem_singleton.mp hl]
          decide
      · exact newline_hookText (hargs.plain true) true
      · exact newline_hookText (hargs'.plain false) false
      · exact (hkept l (List.mem_of_mem_drop hl)).newline
    · have htake : (s.out.take (insertAt s.out)).filter (isHook true) = [] :=
        List.filter_eq_nil_iff.mpr fun l hl => by simp [(hkept l (List.mem_of_mem_take hl)).up]
      have hdrop : (s.out.drop (insertAt s.out)).filter (isHook true) = [] :=
        List.filter_eq_nil_iff.mpr fun l hl => by simp [(hkept l (List.mem_of_mem_drop hl)).up]
      have htable : (if s.hasTable then [] else ["Table = off"]).filter (isHook true) = [] := by
        split
        · rfl
        · decide
      rw [List.filter_append, List.filter_append, List.filter_append, htake, hdrop, htable,
        List.filter_cons_of_pos (hookText_isHook ..),
        List.filter_cons_of_neg (by simp [isHook_up_of_down (hookText_isHook false _)])]
      rfl
  refine ⟨(congrArg (List.flatMap commandNets) hcommands).trans (commandNets_hubCommands hargs),
    fun net hnet => ?_⟩
  refine hargs.nets net ?_
  simp only [List.cons_append, List.append_assoc, List.mem_cons, List.mem_append] at hnet ⊢
  exact .inr (.inr hnet)

/-! The prefixes. -/

theorem shortPrefix_eq_false_iff {net : String} (h : isCidrText net = true) :
    shortPrefix net = false ↔ isAcceptableNetworkPrefix net = true := by
  obtain ⟨hword, addr, p, n, hnet, hp, hn⟩ := Word.of_isCidrText h
  have hslash : (afterSlash net.toList).bind (number 2) = some n := by
    rw [hnet, afterSlash_cut hp, Option.bind_some, hn]
  rw [shortPrefix, isAcceptableNetworkPrefix, trim_of_forall hword.space, hslash]
  simp

theorem shortPrefix_render (c : Cidr) :
    shortPrefix c.render = false ↔ minNetworkPrefix ≤ c.len := by
  rw [shortPrefix, afterSlash_render]
  simp

/-- The address of the text and the networks of its first peer are of an allowed size. -/
def Modest (text : String) : Prop :=
  minNetworkPrefix ≤ (tunnelSubnet text).len ∧ ∀ net ∈ peerNets text,
    isAcceptableNetworkPrefix net = true

instance (text : String) : Decidable (Modest text) := inferInstanceAs (Decidable (_ ∧ ∀ _ ∈ _, _))

theorem keeps_normalizeAgentConfig (h : normalizeAgentConfig text [] opts = .ok out) :
    KeepsDefaultRoute out ↔ Modest text := by
  by_cases hne : text = ""
  · subst hne
    obtain rfl := Except.ok.inj h
    exact iff_of_true (by decide +kernel) (by decide +kernel)
  · obtain ⟨hnets, hcidr⟩ := postUpNets_normalizeAgentConfig hne h
    rw [KeepsDefaultRoute, hnets, List.singleton_append, List.forall_mem_cons, shortPrefix_render,
      Modest]
    refine and_congr_right fun _ => forall₂_congr fun net hnet => ?_
    exact shortPrefix_eq_false_iff (hcidr net hnet)

end FloppyGuard.AgentSync
