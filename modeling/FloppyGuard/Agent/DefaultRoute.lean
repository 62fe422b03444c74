import FloppyGuard.Agent.StoredHook

/-! The default route of a gateway, over every upload of its config and every later change of its
binding or interface. -/
namespace FloppyGuard.AgentSync

open Text WireGuard

variable {text out : String} {nets ls xs ys : List String}

/-! The rewritten networks of the hub peer. -/

theorem tunnelSubnet_len (text : String) : (tunnelSubnet text).len ≠ 32 := by
  unfold tunnelSubnet deriveTunnelSubnet
  cases hm : ((lineStarts (joined [text])).findSome? addressAt).bind fun m => subnetOf m.1 m.2 with
  | none => decide
  | some c =>
    obtain ⟨m, -, hc⟩ := Option.bind_eq_some_iff.mp hm
    unfold subnetOf at hc
    dsimp only at hc
    split at hc
    · cases hc
    · next hmask =>
      generalize hk : (if Nat.ofDigitChars 10 m.2 0 = 32 then 24 else Nat.ofDigitChars 10 m.2 0) = k
        at hc
      have hk32 : k ≠ 32 := by
        rw [← hk]
        split <;> omega
      unfold canonicalizeIpv4Network at hc
      split at hc
      · have htext : String.ofList (m.1 ++ '/' :: Nat.toDigits 10 k) =
            String.ofList m.1 ++ "/" ++ String.ofList (Nat.toDigits 10 k) := by
          apply String.toList_injective
          simp
        rw [htext] at hc
        obtain ⟨-, -, -, -, hlen⟩ := canonicalCidr_slash hc
        exact hlen ▸ hk32
      · cases hc

theorem isHostRoute_render {c : Cidr} (h : c.len ≠ 32) : isHostRoute c.render = false := by
  have hsuffix : ∀ {k}, ('/' :: Nat.toDigits 10 k) <:+ c.toText → k = c.len := by
    rintro k ⟨a, ha⟩
    obtain ⟨-, hdigits⟩ :=
      cut_last_inj (not_mem_toDigits (by decide)) (not_mem_toDigits (by decide)) ha
    rw [← Nat.ofDigitChars_ten_toDigits (n := k), hdigits, Nat.ofDigitChars_ten_toDigits]
  have hle := c.len_le
  have h32 : "/32".toList = '/' :: Nat.toDigits 10 32 := by decide
  have h128 : "/128".toList = '/' :: Nat.toDigits 10 128 := by decide
  have hrender : c.render.toList = c.toText := String.toList_ofList
  unfold isHostRoute
  rw [h32, h128, hrender, Bool.or_eq_false_iff, Bool.eq_false_iff, Bool.eq_false_iff,
    Ne, Ne, List.isSuffixOf_iff_suffix, List.isSuffixOf_iff_suffix]
  constructor
  · intro hs
    exact h (hsuffix hs).symm
  · intro hs
    have := hsuffix hs
    omega

theorem mem_tunnelOnlyIPs {net : String} : net ∈ tunnelOnlyIPs text ↔
    net = (tunnelSubnet text).render ∨ net ∈ parseHubPeerAllowedIPs text ∧
    isHostRoute net = true := by
  rw [tunnelOnlyIPs, List.mem_insertionSort, List.mem_eraseDups, List.mem_cons, List.mem_filter]

theorem trimmed_tunnelOnlyIPs : ∀ net ∈ tunnelOnlyIPs text, Trimmed net := by
  intro net hnet
  rcases mem_tunnelOnlyIPs.mp hnet with rfl | ⟨hnet, -⟩
  · exact trimmed_render _
  · obtain ⟨t, -, hnet⟩ := List.mem_flatMap.mp hnet
    exact trimmed_commaList net hnet

/-- The line the networks of the hub peer are written to. -/
def allowedLine (newAllowedIPs : List String) : String :=
  "AllowedIPs = " ++ ", ".intercalate newAllowedIPs

theorem allowedLine_scan (nets : List String) :
    isPeerHeader (allowedLine nets) = false ∧ isHeader (allowedLine nets) = false ∧
    startsWith "AllowedIPs" (trim (allowedLine nets).toList) = true := by
  have htext : (allowedLine nets).toList = "AllowedIP".toList ++ 's' ::
      (" = ".toList ++ (", ".intercalate nets).toList) := by
    rw [allowedLine, String.toList_append]
    rfl
  obtain ⟨t, ht⟩ := trim_append_cons (p := "AllowedIP".toList) (c := 's') (by decide) (by decide)
    (" = ".toList ++ (", ".intercalate nets).toList)
  rw [isPeerHeader, isHeader, htext, ht]
  exact ⟨rfl, rfl, rfl⟩

theorem commaList_allowedLine (hne : nets ≠ []) (h : ∀ net ∈ nets, Trimmed net) :
    commaList (trim (afterEq (trim (allowedLine nets).toList))) = nets := by
  have hvalue : (", ".intercalate nets).toList ≠ [] := by
    obtain ⟨net, nets, rfl⟩ := List.exists_cons_of_ne_nil hne
    rw [String.toList_intercalate]
    exact intercalate_ne_nil (h net List.mem_cons_self).ends.1
  have heq : afterEq ("AllowedIPs = ".toList ++ (", ".intercalate nets).toList) = ' ' ::
      (", ".intercalate nets).toList := by
    simp [afterEq]
  rw [allowedLine, String.toList_append, trim_keyed (by decide) hvalue (trim_join h), heq, trim,
    List.dropWhile_cons_of_pos (by decide), ← trim, trim_join h, commaList_join h]

theorem newline_allowedLine (hnets : ∀ net ∈ nets, '\n' ∉ net.toList) :
    '\n' ∉ (allowedLine nets).toList := by
  rw [allowedLine, String.toList_append, String.toList_intercalate, List.mem_append, not_or]
  refine ⟨by decide, fun hm => ?_⟩
  rcases mem_of_mem_intercalate hm with hm | ⟨l, hl, hm⟩
  · exact absurd hm (by decide)
  · obtain ⟨net, hnet, rfl⟩ := List.mem_map.mp hl
    exact hnets net hnet hm

theorem AllowedScan.foldl_congr
    (h : xs.map (fun l => trim l.toList) = ys.map fun l => trim l.toList) (s : AllowedScan) :
    xs.foldl AllowedScan.line s = ys.foldl AllowedScan.line s := by
  induction xs generalizing ys s with
  | nil => rw [List.map_eq_nil_iff.mp h.symm]
  | cons x xs ih =>
    obtain ⟨y, ys, rfl, hy, hys⟩ := List.map_eq_cons_iff.mp h.symm
    rw [List.foldl_cons, List.foldl_cons, ih hys.symm, AllowedScan.line, AllowedScan.line,
      isPeerHeader, isPeerHeader, isHeader,
      isHeader, hy]

/-- What the scan of a text and the scan of its rewrite find at the same place. -/
structure RewriteAgrees (nets : List String) (r : AllowedRewrite) (s : AllowedScan) : Prop where
  peerIdx : r.peerIdx = s.peerIdx
  inPeer : r.inPeer = s.inPeer
  replaced : r.replaced = true ↔ s.found ≠ []
  out : r.out.foldl AllowedScan.line .init =
    ⟨s.peerIdx, s.inPeer, if s.found = [] then [] else [trim (allowedLine nets).toList]⟩
  newline : ∀ l ∈ r.out, '\n' ∉ l.toList

theorem RewriteAgrees.line {r : AllowedRewrite} {s : AllowedScan} {raw : String}
    (h : RewriteAgrees nets r s)
    (hnets : ∀ net ∈ nets, '\n' ∉ net.toList) (hraw : '\n' ∉ raw.toList) :
    RewriteAgrees nets (r.line nets raw) (s.line raw) := by
  have hnewline : ∀ l ∈ r.out ++ [raw], '\n' ∉ l.toList :=
    List.forall_mem_append.mpr ⟨h.newline, List.forall_mem_singleton.mpr hraw⟩
  have hout : (r.out ++ [raw]).foldl AllowedScan.line .init =
      AllowedScan.line ⟨s.peerIdx, s.inPeer, if s.found = [] then []
        else [trim (allowedLine nets).toList]⟩ raw := by
    rw [List.foldl_append, h.out]
    rfl
  unfold AllowedRewrite.line AllowedScan.line
  unfold AllowedScan.line at hout
  dsimp only at hout ⊢
  by_cases hpeer : isPeerHeader raw = true
  · rw [if_pos hpeer, if_pos hpeer]
    rw [if_pos hpeer] at hout
    exact ⟨congrArg (· + 1) h.peerIdx, rfl, h.replaced, hout, hnewline⟩
  rw [if_neg hpeer, if_neg hpeer]
  rw [if_neg hpeer] at hout
  by_cases hheader : isHeader raw = true
  · rw [if_pos hheader, if_pos hheader]
    rw [if_pos hheader] at hout
    exact ⟨h.peerIdx, rfl, h.replaced, hout, hnewline⟩
  rw [if_neg hheader, if_neg hheader]
  rw [if_neg hheader] at hout
  by_cases hline : s.inPeer = true ∧ s.peerIdx = 1 ∧
    startsWith "AllowedIPs" (trim raw.toList) = true
  · rw [if_pos (h.inPeer ▸ h.peerIdx ▸ hline), if_pos hline]
    by_cases hreplaced : r.replaced = true
    · have hfound := h.replaced.mp hreplaced
      rw [if_pos hreplaced]
      refine ⟨h.peerIdx, h.inPeer, iff_of_true hreplaced (by simp), ?_, h.newline⟩
      rw [h.out, if_neg hfound, if_neg (by simp)]
    · have hfound : s.found = [] := not_not.mp fun hne => hreplaced (h.replaced.mpr hne)
      rw [if_neg hreplaced]
      refine ⟨h.peerIdx, h.inPeer, iff_of_true rfl (by simp), ?_,
        List.forall_mem_append.mpr ⟨h.newline, ?_⟩⟩
      · obtain ⟨hnopeer, hnoheader, hstart⟩ := allowedLine_scan nets
        change (r.out ++ [allowedLine nets]).foldl _ _ = _
        rw [List.foldl_append, h.out, List.foldl_cons, List.foldl_nil, AllowedScan.line,
          if_neg (by simp [hnopeer]),
          if_neg (by simp [hnoheader]), if_pos ⟨hline.1, hline.2.1, hstart⟩, if_pos hfound,
            if_neg (by simp)]
        rfl
      · exact List.forall_mem_singleton.mpr (newline_allowedLine hnets)
  · rw [if_neg (h.inPeer ▸ h.peerIdx ▸ hline), if_neg hline]
    rw [if_neg hline] at hout
    exact ⟨h.peerIdx, h.inPeer, h.replaced, hout, hnewline⟩

theorem rewriteAgrees (hnets : ∀ net ∈ nets, '\n' ∉ net.toList) (text : String) :
    RewriteAgrees nets ((textLines text).foldl (AllowedRewrite.line nets) .init)
      ((textLines text).foldl AllowedScan.line .init) := by
  have hscan : ∀ (lines : List String) (r : AllowedRewrite) (s : AllowedScan),
    (∀ l ∈ lines, '\n' ∉ l.toList) →
      RewriteAgrees nets r s →
        RewriteAgrees nets (lines.foldl (AllowedRewrite.line nets) r)
          (lines.foldl AllowedScan.line s) := by
    intro lines
    induction lines with
    | nil => exact fun r s _ h => h
    | cons raw lines ih =>
      intro r s hlines h
      rw [List.forall_mem_cons] at hlines
      exact ih _ _ hlines.2 (h.line hnets hlines.1)
  exact hscan _ .init .init newline_textLines
    ⟨rfl, rfl, by simp [AllowedRewrite.init, AllowedScan.init], rfl, nofun⟩

theorem hubPeerAllowed_joined (h : ∀ l ∈ ls, '\n' ∉ l.toList) :
    hubPeerAllowed (textLines (String.ofList (joined ls))) = hubPeerAllowed ls := by
  cases ls with
  | nil => decide
  | cons l ls =>
    rw [hubPeerAllowed, AllowedScan.foldl_congr (textLines_joined (List.cons_ne_nil _ _) h),
      hubPeerAllowed]

theorem hubPeerAllowed_rewrite (hnets : ∀ net ∈ nets, '\n' ∉ net.toList) :
    hubPeerAllowed (textLines (rewriteHubPeerAllowedIPs text nets)) =
      if hubPeerAllowed (textLines text) = [] then [] else [trim (allowedLine nets).toList] := by
  have hagrees := rewriteAgrees hnets text
  rw [rewriteHubPeerAllowedIPs, hubPeerAllowed_joined hagrees.newline, hubPeerAllowed, hagrees.out]
  rfl

/-! The characters of an entry. -/

theorem mem_of_mem_commaList {v : List Char} {entry : String} {c : Char} (h : entry ∈ commaList v)
    (hc : c ∈ entry.toList) :
    c ∈ v := by
  obtain ⟨l, hl, rfl⟩ := List.mem_map.mp h
  obtain ⟨part, hpart, rfl⟩ := List.mem_map.mp (List.mem_filter.mp hl).1
  rw [String.toList_ofList] at hc
  have hpiece : part <:+: [','].intercalate (v.splitOn ',') := infix_intercalate hpart
  rw [List.intercalate_splitOn] at hpiece
  exact hpiece.subset (mem_of_mem_trim hc)

theorem mem_of_mem_afterEq {t : List Char} {c : Char} (h : c ∈ afterEq t) : c ∈ t := by
  unfold afterEq at h
  split at h
  · exact (List.dropWhile_sublist _).subset (List.mem_of_mem_tail h)
  · exact h

theorem exists_of_mem_hubPeerAllowed {lines : List String} {t : List Char}
    (h : t ∈ hubPeerAllowed lines) :
    ∃ l ∈ lines, t = trim l.toList := by
  have hscan : ∀ (rest : List String) (s : AllowedScan), t ∈ (rest.foldl AllowedScan.line s).found →
      t ∈ s.found ∨ ∃ l ∈ rest, t = trim l.toList := by
    intro rest
    induction rest with
    | nil => exact fun s h => .inl h
    | cons raw rest ih =>
      intro s h
      rcases ih _ h with h | ⟨l, hl, ht⟩
      · unfold AllowedScan.line at h
        dsimp only at h
        split at h
        · exact .inl h
        · split at h
          · exact .inl h
          · split at h
            · exact (List.mem_append.mp h).imp_right fun h =>
                ⟨raw, List.mem_cons_self, List.mem_singleton.mp h⟩
            · exact .inl h
      · exact .inr ⟨l, List.mem_cons_of_mem _ hl, ht⟩
  exact (hscan lines .init h).resolve_left nofun

theorem newline_parse : ∀ net ∈ parseHubPeerAllowedIPs text, '\n' ∉ net.toList := by
  intro net hnet hc
  obtain ⟨t, ht, hnet⟩ := List.mem_flatMap.mp hnet
  obtain ⟨l, hl, rfl⟩ := exists_of_mem_hubPeerAllowed ht
  have hline := mem_of_mem_afterEq (mem_of_mem_trim (mem_of_mem_commaList hnet hc))
  exact newline_textLines l hl (mem_of_mem_trim hline)

theorem newline_render (c : Cidr) : '\n' ∉ c.render.toList := by
  rw [Cidr.render, String.toList_ofList]
  exact fun hc => absurd (isSpace_of_mem_toText '\n' hc) (by decide)

theorem newline_tunnelOnlyIPs : ∀ net ∈ tunnelOnlyIPs text, '\n' ∉ net.toList := by
  intro net hnet
  rcases mem_tunnelOnlyIPs.mp hnet with rfl | ⟨hnet, -⟩
  · exact newline_render _
  · exact newline_parse net hnet

/-- A stripped text routes nothing but the subnet, and only when its first peer had networks. -/
theorem mem_peerNets_tunnelOnly {net : String} :
    net ∈ peerNets (rewriteHubPeerAllowedIPs text (tunnelOnlyIPs text)) ↔
    hubPeerAllowed (textLines text) ≠ [] ∧ net = (tunnelSubnet text).render := by
  rw [peerNets, List.mem_filter, parseHubPeerAllowedIPs,
    hubPeerAllowed_rewrite newline_tunnelOnlyIPs]
  split
  · next hnil => simp [hnil]
  · next hne =>
    have htunnel : (tunnelSubnet text).render ∈ tunnelOnlyIPs text :=
      mem_tunnelOnlyIPs.mpr (.inl rfl)
    have hhost := isHostRoute_render (tunnelSubnet_len text)
    rw [List.flatMap_singleton,
      commaList_allowedLine (List.ne_nil_of_mem htunnel) trimmed_tunnelOnlyIPs, mem_tunnelOnlyIPs]
    constructor
    · rintro ⟨rfl | ⟨-, hroute⟩, hfilter⟩
      · exact ⟨hne, rfl⟩
      · simp [hroute] at hfilter
    · rintro ⟨-, rfl⟩
      exact ⟨.inl rfl, by simp [hhost]⟩

/-- The address of the text is of an allowed size, before and after the networks of its first peer
are put into one line. -/
def TunnelModest (text : String) : Prop :=
  minNetworkPrefix ≤ (tunnelSubnet (rewriteHubPeerAllowedIPs text (tunnelOnlyIPs text))).len ∧
    (hubPeerAllowed (textLines text) ≠ [] → minNetworkPrefix ≤ (tunnelSubnet text).len)

theorem keeps_stripToTunnelOnly {name : Option String} (h : stripToTunnelOnly text name = .ok out) :
    KeepsDefaultRoute out ↔ TunnelModest text := by
  rw [keeps_normalizeAgentConfig h, Modest, TunnelModest]
  refine and_congr_right fun _ => ?_
  have hshort := isAcceptableNetworkPrefix_render (tunnelSubnet text)
  constructor
  · exact fun h hne => hshort.mp (h _ (mem_peerNets_tunnelOnly.mpr ⟨hne, rfl⟩))
  · intro h net hnet
    obtain ⟨hne, rfl⟩ := mem_peerNets_tunnelOnly.mp hnet
    exact hshort.mpr (h hne)

/-! The calls. -/

inductive Act
  | upload (data : Uploaded)
  /-- `linkNames` are the names of the links at the time. -/
  | update (linkNames : List String) (data : AgentPatch)
  /-- a registration or a reset -/
  | token (agentToken : Option String)

namespace Act

variable (agent : StoredAgent)

def apply : Act → Except String StoredAgent
  | .upload data => uploadConfig agent data
  | .update linkNames data => AgentSync.update linkNames agent data
  | .token agentToken => .ok { agent with agentToken }

/-- The text an act rewrites, and whether for an agent with a link. -/
def rewrites : Act → Option (Bool × String)
  | .upload (.text t) =>
    if agent.config.isSome ∨ trim t.toList = [] then none else some (agent.bound, t)
  | .upload _ => none
  | .update linkNames data =>
    match checkPatch linkNames agent data, agent.config with
    | .ok patch, some t =>
      if patch.unbinds agent then some (false, t)
      else if patch.renames agent then some (patch.boundAfter agent, t)
      else none
    | _, _ => none
  | .token _ => none

end Act

/-- A text is of an allowed size for an agent with or without a link. -/
def Fits (bound : Bool) (text : String) : Prop := if bound then Modest text else TunnelModest text

instance (text : String) : Decidable (TunnelModest text) :=
  inferInstanceAs (Decidable (_ ∧ (_ → _)))

instance (bound : Bool) (text : String) : Decidable (Fits bound text) :=
  inferInstanceAs (Decidable (ite _ _ _))

def KeepsStored (agent : StoredAgent) : Prop :=
  ∀ text, agent.configText = some text → KeepsDefaultRoute text

def ModestAct (agent : StoredAgent) (act : Act) : Prop :=
  ∀ bound text, act.rewrites agent = some (bound, text) → Fits bound text

variable {agent agent' : StoredAgent} {act : Act} {acts : List Act} {bound : Bool}

theorem keepsStored_iff (h : agent.configText = some out) :
    KeepsStored agent ↔ KeepsDefaultRoute out := by
  rw [KeepsStored, h]
  simp

/-- A text as an agent with or without a link stores it. -/
def rewritten (bound : Bool) (text : String) (name : Option String) : Except String String :=
  if bound then normalizeAgentConfig text [] ⟨name, []⟩ else stripToTunnelOnly text name

theorem rewritten_true {name : Option String} :
    rewritten true text name = normalizeAgentConfig text [] ⟨name, []⟩ := if_pos rfl

theorem rewritten_false {name : Option String} :
    rewritten false text name = stripToTunnelOnly text name :=
  if_neg Bool.false_ne_true

/-- The act leaves the stored config alone, or stores a rewritten text. -/
def Stores (agent agent' : StoredAgent) (rewrites : Option (Bool × String)) : Prop :=
  (rewrites = none ∧ agent'.configText = agent.configText) ∨
    ∃ bound text name out, rewrites = some (bound, text) ∧ agent'.configText = some out ∧
      rewritten bound text name = .ok out

theorem stores_uploadConfig {data : Uploaded} (h : uploadConfig agent data = .ok agent') :
    Stores agent agent' ((Act.upload data).rewrites agent) := by
  unfold uploadConfig at h
  split at h
  · next hconfig =>
    obtain rfl := Except.ok.inj h
    refine .inl ⟨?_, rfl⟩
    cases data with
    | text t => exact if_pos (.inl hconfig)
    | _ => rfl
  · next hconfig =>
    cases data with
    | missing =>
      obtain rfl := Except.ok.inj h
      exact .inl ⟨rfl, rfl⟩
    | other => cases h
    | text t =>
      dsimp only at h
      split at h
      · next hblank =>
        obtain rfl := Except.ok.inj h
        exact .inl ⟨if_pos (.inr hblank), rfl⟩
      · next hblank =>
        obtain ⟨iface, -, h⟩ := Checked.bind_eq_ok.mp h
        have hrewrites : (Act.upload (.text t)).rewrites agent = some (agent.bound, t) :=
          if_neg (not_or.mpr ⟨hconfig, hblank⟩)
        obtain ⟨out, hout, h⟩ : ∃ out, rewritten agent.bound t (some iface) = .ok out ∧
            Except.ok { agent with configText := some out } =
              (Except.ok agent' : Except String StoredAgent) := by
          rw [rewritten]
          split at h
          · next hbound =>
            rw [if_pos hbound]
            exact Checked.bind_eq_ok.mp h
          · next hbound =>
            rw [if_neg hbound]
            exact Checked.bind_eq_ok.mp h
        obtain rfl := Except.ok.inj h
        exact .inr ⟨agent.bound, t, some iface, out, hrewrites, rfl, hout⟩

theorem stores_update {linkNames : List String} {data : AgentPatch}
    (h : update linkNames agent data = .ok agent') :
    Stores agent agent' ((Act.update linkNames data).rewrites agent) := by
  obtain ⟨patch, hpatch, h⟩ := Checked.bind_eq_ok.mp h
  obtain ⟨configText, hconfig, h⟩ := Checked.bind_eq_ok.mp h
  obtain rfl := Except.ok.inj h
  rw [Act.rewrites, hpatch]
  unfold CheckedPatch.configText at hconfig
  cases hstored : agent.config with
  | none =>
    rw [hstored] at hconfig
    obtain rfl := Except.ok.inj hconfig
    exact .inl ⟨rfl, rfl⟩
  | some t =>
    rw [hstored] at hconfig
    dsimp only at hconfig ⊢
    split at hconfig
    · next hunbinds =>
      rw [if_pos hunbinds]
      obtain ⟨iface, -, hconfig⟩ := Checked.bind_eq_ok.mp hconfig
      obtain ⟨out, hout, rfl⟩ := Checked.map_eq_ok.mp hconfig
      exact .inr ⟨false, t, some iface, out, rfl, rfl, rewritten_false.trans hout⟩
    · next hbinds =>
      rw [if_neg hbinds]
      split at hconfig
      · next hrenames =>
        rw [if_pos hrenames]
        obtain ⟨out, hout, rfl⟩ := Checked.map_eq_ok.mp hconfig
        exact .inr ⟨patch.boundAfter agent, t, patch.wgInterface, out, rfl, rfl, hout⟩
      · next hkeeps =>
        rw [if_neg hkeeps]
        obtain rfl := Except.ok.inj hconfig
        exact .inl ⟨rfl, rfl⟩

/-- What an accepted act leaves of the stored config. -/
theorem stores_apply (h : act.apply agent = .ok agent') :
    Stores agent agent' (act.rewrites agent) := by
  cases act with
  | upload data => exact stores_uploadConfig h
  | update linkNames data => exact stores_update h
  | token agentToken =>
    obtain rfl := Except.ok.inj h
    exact .inl ⟨rfl, rfl⟩

theorem keeps_iff_fits {name : Option String} (h : rewritten bound text name = .ok out) :
    KeepsDefaultRoute out ↔ Fits bound text := by
  cases bound with
  | true =>
    rw [rewritten_true] at h
    rw [Fits, if_pos rfl]
    exact keeps_normalizeAgentConfig h
  | false =>
    rw [rewritten_false] at h
    rw [Fits, if_neg Bool.false_ne_true]
    exact keeps_stripToTunnelOnly h

/-- The act leaves the stored config alone, or stores a rewritten text that is kept when the text
fits. -/
def Leaves (agent agent' : StoredAgent) (rewrites : Option (Bool × String)) : Prop :=
  (rewrites = none ∧ agent'.configText = agent.configText) ∨
    ∃ bound text out, rewrites = some (bound, text) ∧ agent'.configText = some out ∧
      (KeepsDefaultRoute out ↔ Fits bound text)

theorem leaves_apply (h : act.apply agent = .ok agent') :
    Leaves agent agent' (act.rewrites agent) := by
  rcases stores_apply h with hsame | ⟨bound, text, name, out, hrewrites, hstored, hout⟩
  · exact .inl hsame
  · exact .inr ⟨bound, text, out, hrewrites, hstored, keeps_iff_fits hout⟩

theorem keepsStored_apply_iff (h : act.apply agent = .ok agent')
    (hrewrites : act.rewrites agent = some (bound, text)) :
    KeepsStored agent' ↔ Fits bound text := by
  rcases leaves_apply h with ⟨hnone, -⟩ | ⟨b, t, out, hsome, hout, hiff⟩
  · rw [hnone] at hrewrites
    cases hrewrites
  · obtain ⟨rfl, rfl⟩ := Prod.mk.inj (Option.some.inj (hsome.symm.trans hrewrites))
    exact (keepsStored_iff hout).trans hiff

/-- A refused call changes nothing. -/
def next (agent : StoredAgent) (act : Act) : StoredAgent :=
  match act.apply agent with
  | .ok agent' => agent'
  | .error _ => agent

theorem KeepsStored.next (h : KeepsStored agent) (hact : ModestAct agent act) :
    KeepsStored (next agent act) := by
  unfold AgentSync.next
  split
  · next agent' happly =>
    rcases leaves_apply happly with ⟨-, hsame⟩ | ⟨b, t, out, hsome, hout, hiff⟩
    · rwa [KeepsStored, hsame]
    · exact (keepsStored_iff hout).mpr (hiff.mpr (hact b t hsome))
  · exact h

/-- Each act of the run meets the condition in the state it finds. -/
def ModestRun (agent : StoredAgent) : List Act → Prop
  | [] => True
  | act :: acts => ModestAct agent act ∧ ModestRun (next agent act) acts

theorem KeepsStored.run (h : KeepsStored agent) (hrun : ModestRun agent acts) {pre : List Act}
    (hpre : pre <+: acts) :
    KeepsStored (pre.foldl AgentSync.next agent) := by
  induction acts generalizing agent pre with
  | nil =>
    obtain rfl := List.prefix_nil.mp hpre
    exact h
  | cons act acts ih =>
    cases pre with
    | nil => exact h
    | cons act' pre =>
      obtain ⟨rfl, hrest⟩ := List.cons_prefix_cons.mp hpre
      exact ih (h.next hrun.1) hrun.2 hrest

/-- A stored `PostUp` leaves the default route alone exactly when the text it was made from is of an
allowed size; over a run, when each text is. -/
theorem default_route_kept_iff (agent : StoredAgent) :
    (∀ agent' (act : Act) bound text, act.apply agent = .ok agent' →
      act.rewrites agent = some (bound, text) →
      (KeepsStored agent' ↔ Fits bound text)) ∧
    ∀ acts, KeepsStored agent → ModestRun agent acts → ∀ pre, pre <+: acts →
    KeepsStored (pre.foldl next agent) :=
  ⟨fun _ _ _ _ h hrewrites => keepsStored_apply_iff h hrewrites, fun _ h hrun _ hpre =>
    h.run hrun hpre⟩

/-! A conf that sends everything through the tunnel, from an agent with a link; and a renamed
interface of one that fits. -/

def tunnelConf (allowed : String) : String :=
  "[Interface]\nPrivateKey = k=\nAddress = 10.10.0.2/24\n\n[Peer]\nPublicKey = h=\nAllowedIPs = " ++
    allowed

def enrolled (configText : Option String) : StoredAgent :=
  ⟨configText, none, some "office", some "t"⟩

theorem full_tunnel_not_kept :
    ¬ ∀ (agent agent' : StoredAgent) (data : Uploaded), agent.configText = none →
    uploadConfig agent data = .ok agent' → KeepsStored agent' := by
  intro h
  have hok : (uploadConfig (enrolled none) (.text (tunnelConf "0.0.0.0/0"))).toOption.isSome =
      true := by decide +kernel
  have hrewrites : (Act.upload (.text (tunnelConf "0.0.0.0/0"))).rewrites (enrolled none) =
      some (true, tunnelConf "0.0.0.0/0") := by
    decide +kernel
  have hwide : ¬ Fits true (tunnelConf "0.0.0.0/0") := by decide +kernel
  cases hupload : uploadConfig (enrolled none) (.text (tunnelConf "0.0.0.0/0")) with
  | error e =>
    rw [hupload] at hok
    cases hok
  | ok agent' =>
    have happly : (Act.upload (.text (tunnelConf "0.0.0.0/0"))).apply (enrolled none) =
        .ok agent' := hupload
    exact hwide
      ((keepsStored_apply_iff happly hrewrites).mp (h (enrolled none) agent' _ rfl hupload))

instance (agent : StoredAgent) (act : Act) : Decidable (ModestAct agent act) :=
  decidable_of_iff (∀ p ∈ act.rewrites agent, Fits p.1 p.2) ⟨fun h _ _ he => h _ he, fun h p hp =>
    h p.1 p.2 hp⟩

def renamed : List Act := [.token none, .update ["office"] ⟨some (some "wg1"), none⟩]

theorem default_route_kept_iff_renamed :
    KeepsStored
      (renamed.foldl next (enrolled (some (tunnelConf "10.10.0.0/24, 10.20.0.0/16")))) := by
  refine (default_route_kept_iff _).2 renamed ?_ ⟨?_, ?_, trivial⟩ renamed List.prefix_rfl
  · rintro text ⟨⟩
    decide +kernel
  · decide +kernel
  · decide +kernel

end FloppyGuard.AgentSync
