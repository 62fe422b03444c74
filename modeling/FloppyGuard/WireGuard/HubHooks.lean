import FloppyGuard.WireGuard.HubRewrite

/-! The hooks of a conf after `_rewriteHubConf`: those it had, each rewritten, and those it lacked.
-/
namespace FloppyGuard.WireGuard

open Text

variable {inp : HubInput} {owned conf xs ys zs : List String} {l : String} {w isUp : Bool}

/-! Lines put into a text, as its sections see them. -/

/-- `zs` between `xs` and `ys` is in the middle of one section, and no other changes. -/
structure Inserted (xs zs ys : List String) (pre : List Section) (sec sec' : Section)
    (post : List Section) : Prop where
  before : sections (xs ++ ys) = pre ++ sec :: post
  after : sections (xs ++ zs ++ ys) = pre ++ sec' :: post
  header : sec'.header = sec.header
  body : ∃ a b, sec.body = a ++ b ∧ sec'.body = a ++ zs ++ b
  isPeer : sec.isPeer = inPeerAfter false xs

theorem foldl_sectionStep_append (xs : List String) (done more : List Section) (cur : Section) :
    xs.foldl sectionStep (done ++ more, cur) =
      (done ++ (xs.foldl sectionStep (more, cur)).1, (xs.foldl sectionStep (more, cur)).2) := by
  induction xs generalizing more cur with
  | nil => rfl
  | cons l xs ih =>
    rw [List.foldl_cons, List.foldl_cons, sectionStep, sectionStep]
    split
    · rw [List.append_assoc, ih]
    · exact ih more _

theorem sectionScan_isPeer (xs : List String) :
    (sectionScan xs).2.isPeer = inPeerAfter false xs := by
  induction xs using List.reverseRecOn with
  | nil => rfl
  | append_singleton xs l ih =>
    rw [sectionScan_concat, inPeerAfter_append, inPeerAfter, List.foldl_cons, List.foldl_nil,
      sectionStep]
    split
    · next hl => rfl
    · next hl => exact ih

/-- What follows a header does not depend on what precedes it. -/
theorem foldl_sectionStep_header (hl : isHeader l = true) (xs : List String) :
    ∃ post, ∀ s : List Section × Section,
      ((l :: xs).foldl sectionStep s).1 ++ [((l :: xs).foldl sectionStep s).2] =
        s.1 ++ s.2 :: post := by
  obtain ⟨start, hstart⟩ : ∃ start : Section, ∀ s, sectionStep s l = (s.1 ++ [s.2], start) :=
    ⟨_, fun s => dif_pos hl⟩
  refine ⟨(xs.foldl sectionStep ([], start)).1 ++ [(xs.foldl sectionStep ([], start)).2],
    fun s => ?_⟩
  have happend := foldl_sectionStep_append xs (s.1 ++ [s.2]) [] start
  rw [List.append_nil] at happend
  rw [List.foldl_cons, hstart, happend]
  simp

theorem exists_inserted (hz : ∀ l ∈ zs, isHeader l = false) (xs ys : List String) :
    ∃ pre sec sec' post, Inserted xs zs ys pre sec sec' post := by
  obtain ⟨b, rest, rfl, hb, hrest⟩ : ∃ b rest, ys = b ++ rest ∧ (∀ l ∈ b, isHeader l = false) ∧
      ∃ post, ∀ s : List Section × Section,
        (rest.foldl sectionStep s).1 ++ [(rest.foldl sectionStep s).2] = s.1 ++ s.2 :: post := by
    refine ⟨ys.takeWhile (!isHeader ·), ys.dropWhile (!isHeader ·),
      (List.takeWhile_append_dropWhile).symm, ?_, ?_⟩
    · exact fun l hl => by simpa using List.mem_takeWhile_imp hl
    · cases hd : ys.dropWhile (!isHeader ·) with
      | nil => exact ⟨[], fun _ => rfl⟩
      | cons l rest =>
        have hl : isHeader l = true := by
          have hhead := List.head?_dropWhile_not (!isHeader ·) ys
          rw [hd] at hhead
          simpa using hhead
        exact foldl_sectionStep_header hl rest
  obtain ⟨post, hpost⟩ := hrest
  have hzb : ∀ l ∈ zs ++ b, isHeader l = false :=
    fun l hl => (List.mem_append.mp hl).elim (hz l) (hb l)
  refine ⟨(sectionScan xs).1, (sectionScan xs).2.add b hb, (sectionScan xs).2.add (zs ++ b) hzb,
    post, ?_, ?_, rfl,
    ⟨(sectionScan xs).2.body, b, rfl, ?_⟩, sectionScan_isPeer xs⟩
  · rw [sections, sectionScan, List.foldl_append, List.foldl_append, hpost]
    change (b.foldl sectionStep (sectionScan xs)).1 ++ (b.foldl sectionStep (sectionScan xs)).2 ::
      post = _
    rw [foldl_sectionStep_plain hb]
  · rw [sections, sectionScan, List.append_assoc, ← List.append_assoc zs, List.foldl_append,
      List.foldl_append, hpost]
    change ((zs ++ b).foldl sectionStep (sectionScan xs)).1 ++
      ((zs ++ b).foldl sectionStep (sectionScan xs)).2 :: post = _
    rw [foldl_sectionStep_plain hzb]
  · simp [Section.add]

/-! The hooks of a conf. -/

/-- The lines of one hook; wg-quick runs them in order. -/
def hooks (isUp : Bool) (conf : List String) : List String :=
  (outsidePeers conf).filter (isHook isUp)

/-- No line anywhere names the hook. -/
def lacks (isUp : Bool) (conf : List String) : Bool := !conf.any (isHook isUp)

theorem startsWith_exclusive {t : List Char} (h : startsWith "PostUp" t = true) :
    startsWith "PostDown" t = false := by
  obtain ⟨rest, rfl⟩ := List.isPrefixOf_iff_prefix.mp h
  rfl

theorem isHook_down_of_up (h : isHook true l = true) : isHook false l = false :=
  startsWith_exclusive h

theorem isHook_up_of_down (h : isHook false l = true) : isHook true l = false :=
  Bool.eq_false_iff.mpr fun hup => by
    rw [isHook_down_of_up hup] at h
    cases h

theorem isHook_of_head {c : Char} {t : List Char} (h : l.toList = c :: t) (hc : isSpace c = false)
    (hne : c ≠ 'P') :
    isHook isUp l = false := by
  obtain ⟨t', ht'⟩ := trim_cons hc t
  rw [isHook, h, ht', startsWith]
  cases isUp <;> simp [List.isPrefixOf, hne.symm]

theorem isHook_masqMarkerLine (nics : List Nic) : isHook isUp (masqMarkerLine nics) = false :=
  isHook_of_head (c := '#') String.toList_append (by decide) (by decide)

theorem isHook_of_isHeader (h : isHeader l = true) : isHook isUp l = false := by
  obtain ⟨t, ht⟩ := List.isPrefixOf_iff_prefix.mp h
  rw [isHook, ← ht]
  cases isUp <;> rfl

/-- The line of a hook with a value. -/
def hookText (isUp : Bool) (value : String) : String :=
  (if isUp then "PostUp" else "PostDown") ++ " = " ++ value

theorem hookText_isHook (isUp : Bool) (value : String) :
    isHook isUp (hookText isUp value) = true := by
  cases isUp with
  | true =>
    obtain ⟨t, ht⟩ := trim_append_cons (p := "PostU".toList) (c := 'p') (by decide) (by decide)
      (" = ".toList ++ value.toList)
    have htext : (hookText true value).toList = "PostU".toList ++ 'p' ::
        (" = ".toList ++ value.toList) := by
      rw [hookText, String.toList_append, String.toList_append]
      rfl
    rw [isHook, htext, ht]
    rfl
  | false =>
    obtain ⟨t, ht⟩ := trim_append_cons (p := "PostDow".toList) (c := 'n') (by decide) (by decide)
      (" = ".toList ++ value.toList)
    have htext : (hookText false value).toList = "PostDow".toList ++ 'n' ::
        (" = ".toList ++ value.toList) := by
      rw [hookText, String.toList_append, String.toList_append]
      rfl
    rw [isHook, htext, ht]
    rfl

/-- The commands of a value after the rewrite. -/
def rewrittenCmds (inp : HubInput) (owned : List String) (isUp : Bool) (value : List Char) :
    List (List Char) :=
  dedupeHookCmds (operatorCmds inp.ifaceName owned value ++
    (hookCmds isUp inp.ifaceName inp.allRouteNets inp.masqueradeIfaces).map String.toList)

theorem hookLine_eq (isUp : Bool) : hookLine inp owned isUp l =
    hookText isUp
      ("; ".intercalate
        ((rewrittenCmds inp owned isUp (trim (afterEq l.toList))).map String.ofList)) := rfl

theorem isHook_hookLine (isUp : Bool) : isHook isUp (hookLine inp owned isUp l) = true := by
  rw [hookLine_eq]
  exact hookText_isHook isUp _

/-! The hooks after the scan. -/

theorem filter_outsideLines (inp : HubInput) (owned : List String) (isUp w : Bool) (l : String) :
    (outsideLines inp owned w l).filter (isHook isUp) = ([l].filter (isHook isUp)).map
    (hookLine inp owned isUp) := by
  have hself : ∀ up, isHook up (hookLine inp owned up l) = true := fun up => isHook_hookLine up
  have hdownLine : isHook true (hookLine inp owned false l) = false :=
    isHook_up_of_down (hself false)
  have hupLine : isHook false (hookLine inp owned true l) = false := isHook_down_of_up (hself true)
  have hmarker : isHook isUp (masqMarkerLine inp.masqueradeIfaces) = false :=
    isHook_masqMarkerLine _
  unfold outsideLines
  split
  · next hm => simp [isHook_of_marker hm]
  split
  · next hup =>
    have hdown : isHook false l = false := isHook_down_of_up hup
    cases isUp with
    | true => cases w <;> simp [hmarker, hself, hup]
    | false => cases w <;> simp [hmarker, hupLine, hdown]
  next hup =>
  split
  · next hdown =>
    cases isUp with
    | true => simp [hdownLine, hup]
    | false => simp [hself, hdown]
  · next hdown => cases isUp <;> simp [hup, hdown]

def injects (inp : HubInput) (conf : List String) : Bool :=
  (lacks true conf || lacks false conf) && (inp.allRouteNets ≠ [] || inp.masqueradeIfaces ≠ [])

def injectedHook (inp : HubInput) (isUp : Bool) : String :=
  hookText isUp
    ("; ".intercalate (hookCmds isUp inp.ifaceName inp.allRouteNets inp.masqueradeIfaces))

def injectedLines (inp : HubInput) (conf : List String) : List String :=
  (if lacks true conf then [masqMarkerLine inp.masqueradeIfaces, injectedHook inp true] else []) ++
    if lacks false conf then [injectedHook inp false] else []

def insertAt (conf out : List String) : ℕ :=
  if lacks false conf then
    if lacks true conf then if 0 < out.findIdx isPeerHeader then out.findIdx isPeerHeader
      else out.length
    else out.findIdx (isHook true) + 1
  else out.findIdx (isHook false)

theorem injectHooks_eq (conf xs : List String) : injectHooks inp conf xs =
    if injects inp conf then xs.take (insertAt conf xs) ++ injectedLines inp conf ++
      xs.drop (insertAt conf xs) else xs := by
  have hup : (conf.any fun l => startsWith "PostUp" (trim l.toList)) = !lacks true conf :=
    (Bool.not_not _).symm
  have hdown : (conf.any fun l => startsWith "PostDown" (trim l.toList)) = !lacks false conf :=
    (Bool.not_not _).symm
  unfold injectHooks
  dsimp only
  rw [hup, hdown, Bool.not_not, Bool.not_not]
  change (if injects inp conf then _ else xs) = _
  refine if_congr Iff.rfl ?_ rfl
  unfold injectedLines insertAt
  cases lacks true conf <;> cases lacks false conf <;> rfl

/-- The lacking hooks go into a peer: the line they go to is a peer's, or the conf starts and ends
with peers. -/
def intoPeer (conf : List String) : Bool :=
  if lacks false conf then
    if lacks true conf then (conf.dropWhile isMarker).head?.any isPeerHeader &&
      inPeerAfter false conf
    else inPeerAfter false (conf.takeWhile (!isHook true ·))
  else inPeerAfter false (conf.takeWhile (!isHook false ·))

/-- What one line becomes. -/
def HubScan.wrote (inp : HubInput) (owned : List String) (s : HubScan) (l : String) : List String :=
  if isHeader l then [l]
  else if s.inPeer then [peerLine inp.peerUpdates s.currentPubKey l]
  else outsideLines inp owned s.markerWritten l

variable {s : HubScan}

theorem hub_line_wrote (inp : HubInput) (owned : List String) (s : HubScan) (l : String) :
    (s.line inp owned l).out = s.out ++ s.wrote inp owned l ∧
    (s.line inp owned l).inPeer = if isHeader l then isPeerHeader l else s.inPeer := by
  rw [HubScan.wrote]
  split
  · next hl =>
    rw [hub_line_header hl]
    exact ⟨rfl, rfl⟩
  next hl =>
  have hl : isHeader l = false := Bool.eq_false_iff.mpr hl
  split
  · next hin =>
    rw [hub_line_inPeer hin hl]
    exact ⟨rfl, hin.symm⟩
  · next hin =>
    have hin : s.inPeer = false := Bool.eq_false_iff.mpr hin
    rw [hub_line_outside hin hl]
    exact ⟨rfl, hin.symm⟩

theorem exists_foldl_out (inp : HubInput) (owned xs : List String) (s : HubScan) :
    ∃ ys, (xs.foldl (HubScan.line inp owned) s).out = s.out ++ ys := by
  induction xs generalizing s with
  | nil => exact ⟨[], (List.append_nil _).symm⟩
  | cons l xs ih =>
    obtain ⟨ys, hys⟩ := ih (s.line inp owned l)
    rw [List.foldl_cons, hys, (hub_line_wrote inp owned s l).1, List.append_assoc]
    exact ⟨_, rfl⟩

theorem isHook_peerLine {updates : Table String (List String)} {key : Option String} :
    isHook isUp (peerLine updates key l) = isHook isUp l := by
  have hips : startsWith "AllowedIPs" (trim l.toList) = true → isHook isUp l = false := by
    intro h
    obtain ⟨t, ht⟩ := List.isPrefixOf_iff_prefix.mp h
    rw [isHook, ← ht]
    cases isUp <;> rfl
  unfold peerLine
  split
  · rfl
  split
  · next hstart =>
    split
    · rw [hips hstart]
      exact isHook_of_head (c := 'A') String.toList_append (by decide) (by decide)
    · rfl
  · rfl

/-- A line that names no hook does not become one. -/
theorem wrote_of_not_hook (h : isHook isUp l = false) :
    ∀ m ∈ s.wrote inp owned l, isHook isUp m = false := by
  intro m hm
  rw [HubScan.wrote] at hm
  split at hm
  · rwa [List.mem_singleton.mp hm]
  split at hm
  · rwa [List.mem_singleton.mp hm, isHook_peerLine]
  · have hnone := filter_outsideLines inp owned isUp s.markerWritten l
    rw [List.filter_cons, if_neg (by simp [h]), List.filter_nil, List.map_nil,
      List.filter_eq_nil_iff] at hnone
    exact Bool.eq_false_iff.mpr (hnone m hm)

/-- A hook line becomes one, and what is put above it is neither a hook nor a header. -/
theorem wrote_of_hook (inp : HubInput) (owned : List String) (s : HubScan)
    (h : isHook isUp l = true) :
    ∃ front m, s.wrote inp owned l = front ++ [m] ∧ isHook isUp m = true ∧
    isHeader m = false ∧ ∀ k ∈ front, isHook isUp k = false ∧ isHeader k = false := by
  have hhead : isHeader l = false := by
    refine Bool.eq_false_iff.mpr fun hl => ?_
    rw [isHook_of_isHeader hl] at h
    cases h
  rw [HubScan.wrote, if_neg (by simp [hhead])]
  split
  · exact ⟨[], _, rfl, by rwa [isHook_peerLine], isHeader_peerLine hhead, List.forall_mem_nil _⟩
  have hmarker : isMarker l ≠ true := fun hm => by
    rw [isHook_of_marker hm] at h
    cases h
  rw [outsideLines, if_neg hmarker]
  cases isUp with
  | true =>
    refine ⟨if s.markerWritten then [] else [masqMarkerLine inp.masqueradeIfaces],
      hookLine inp owned true l, ?_,
      isHook_hookLine true, isHeader_hookLine, fun k hk => ?_⟩
    · rw [if_pos h]
    · split at hk
      · cases hk
      · rw [List.mem_singleton.mp hk]
        exact ⟨isHook_masqMarkerLine _, isHeader_masqMarkerLine _⟩
  | false =>
    refine ⟨[], hookLine inp owned false l, ?_, isHook_hookLine false, isHeader_hookLine,
      List.forall_mem_nil _⟩
    rw [if_neg (by simp [isHook_up_of_down h]), if_pos h]
    rfl

theorem inPeerAfter_wrote (b : Bool) (hb : b = s.inPeer) :
    inPeerAfter b (s.wrote inp owned l) = if isHeader l then isPeerHeader l else s.inPeer := by
  rw [HubScan.wrote]
  split
  · next hl => rw [inPeerAfter, List.foldl_cons, if_pos hl, List.foldl_nil]
  next hl =>
  have hl : isHeader l = false := Bool.eq_false_iff.mpr hl
  split
  · have hplain : ∀ m ∈ [peerLine inp.peerUpdates s.currentPubKey l], isHeader m = false :=
      plain_cons (isHeader_peerLine hl) (List.forall_mem_nil _)
    exact (inPeerAfter_plain hplain).trans hb
  · exact (inPeerAfter_plain (plain_outsideLines inp owned _ hl)).trans hb

theorem foldl_inPeer (xs : List String) (hs : inPeerAfter false s.out = s.inPeer) :
    let t := xs.foldl (HubScan.line inp owned) s
    inPeerAfter false t.out = inPeerAfter s.inPeer xs := by
  induction xs generalizing s with
  | nil => exact hs
  | cons l xs ih =>
    obtain ⟨hout, hin⟩ := hub_line_wrote inp owned s l
    have hnext : inPeerAfter false (s.line inp owned l).out = (s.line inp owned l).inPeer := by
      rw [hout, inPeerAfter_append, inPeerAfter_wrote _ hs, hin]
    refine (ih hnext).trans ?_
    rw [hin]
    rfl

theorem inPeerAfter_scanned (inp : HubInput) (owned conf : List String) :
    inPeerAfter false (scanned inp owned conf) = inPeerAfter false conf :=
  foldl_inPeer (s := ⟨false, none, false, []⟩) conf rfl

/-! The place the lacking hooks go to is inside a peer exactly when `intoPeer` says so. -/

theorem findIdx_of_split {p : String → Bool} (hx : ∀ a ∈ xs, p a = false) (hl : p l = true) :
    (xs ++ l :: ys).findIdx p = xs.length := by
  induction xs with
  | nil => simp [List.findIdx_cons, hl]
  | cons a xs ih =>
    rw [List.cons_append, List.findIdx_cons, hx a List.mem_cons_self, cond_false, ih fun b hb =>
      hx b (List.mem_cons_of_mem _ hb),
      List.length_cons]

/-- The first hook of the conf and the first of the scan stand behind the same sections. -/
theorem exists_first_hook (inp : HubInput) (owned : List String) (h : lacks isUp conf = false) :
    ∃ front m rest,
    scanned inp owned conf = front ++ m :: rest ∧ isHook isUp m = true ∧ isHeader m = false ∧
      (∀ k ∈ front, isHook isUp k = false) ∧ inPeerAfter false front = inPeerAfter false
      (conf.takeWhile (!isHook isUp ·)) := by
  obtain ⟨l, b, hconf, hl⟩ : ∃ l b, conf = conf.takeWhile (!isHook isUp ·) ++ l :: b ∧
      isHook isUp l = true := by
    cases hd : conf.dropWhile (!isHook isUp ·) with
    | nil =>
      rw [List.dropWhile_eq_nil_iff] at hd
      have hany : conf.any (isHook isUp) = true := by simpa [lacks] using h
      obtain ⟨l, hl, hhook⟩ := List.any_eq_true.mp hany
      simpa [hhook] using hd l hl
    | cons l b =>
      refine ⟨l, b, ?_, ?_⟩
      · conv_lhs => rw [← List.takeWhile_append_dropWhile (p := (!isHook isUp ·)) (l := conf), hd]
      · have hhead := List.head?_dropWhile_not (!isHook isUp ·) conf
        rw [hd] at hhead
        simpa using hhead
  have hbefore : ∀ k ∈ conf.takeWhile (!isHook isUp ·), isHook isUp k = false := fun k hk => by
    simpa using List.mem_takeWhile_imp hk
  generalize conf.takeWhile (!isHook isUp ·) = a at hconf hbefore ⊢
  subst hconf
  have hfront : ∀ (xs : List String) (s : HubScan), (∀ k ∈ xs, isHook isUp k = false) →
      (∀ k ∈ s.out, isHook isUp k = false) → ∀ k ∈ (xs.foldl (HubScan.line inp owned) s).out,
        isHook isUp k = false := by
    intro xs
    induction xs with
    | nil => exact fun _ _ => id
    | cons l xs ih =>
      intro s hxs hs
      refine ih _ (fun k hk => hxs k (List.mem_cons_of_mem _ hk)) fun k hk => ?_
      rw [(hub_line_wrote inp owned s l).1] at hk
      exact (List.mem_append.mp hk).elim (hs k) (wrote_of_not_hook (hxs l List.mem_cons_self) k)
  let s := a.foldl (HubScan.line inp owned) ⟨false, none, false, []⟩
  obtain ⟨front, m, hwrote, hm, hmhead, hmarks⟩ := wrote_of_hook inp owned s hl
  obtain ⟨rest, hrest⟩ := exists_foldl_out inp owned b (s.line inp owned l)
  refine ⟨s.out ++ front, m, rest, ?_, hm, hmhead, fun k hk => ?_, ?_⟩
  · rw [scanned, List.foldl_append, List.foldl_cons, hrest, (hub_line_wrote inp owned s l).1,
      hwrote]
    simp
  · rcases List.mem_append.mp hk with hk | hk
    · exact hfront a ⟨false, none, false, []⟩ hbefore (fun k hk => absurd hk List.not_mem_nil) k hk
    · exact (hmarks k hk).1
  · rw [inPeerAfter_append, inPeerAfter_plain fun k hk => (hmarks k hk).2]
    exact inPeerAfter_scanned inp owned a

theorem inPeerAfter_of_no_peer (h : ∀ l ∈ xs, isPeerHeader l = false) :
    inPeerAfter false xs = false := by
  induction xs with
  | nil => rfl
  | cons l xs ih =>
    rw [inPeerAfter, List.foldl_cons, h l List.mem_cons_self, ite_self]
    exact ih fun m hm => h m (List.mem_cons_of_mem _ hm)

theorem exists_wrote (inp : HubInput) (owned : List String) (hs : s.inPeer = false)
    (hl : isMarker l = false) :
    ∃ m ms, s.wrote inp owned l = m :: ms ∧ isPeerHeader m = isPeerHeader l := by
  rw [HubScan.wrote]
  split
  · exact ⟨l, [], rfl, rfl⟩
  next hhead =>
  have hhead : isHeader l = false := Bool.eq_false_iff.mpr hhead
  have hplain := plain_outsideLines inp owned s.markerWritten hhead
  rw [if_neg (by simp [hs]), isPeerHeader_eq_false hhead]
  cases hlines : outsideLines inp owned s.markerWritten l with
  | nil =>
    rw [outsideLines, if_neg (by simp [hl])] at hlines
    split at hlines
    · simp at hlines
    split at hlines
    · cases hlines
    · cases hlines
  | cons m ms => exact ⟨m, ms, rfl, isPeerHeader_eq_false (hplain m (hlines ▸ List.mem_cons_self))⟩

theorem head?_scanned (inp : HubInput) (owned conf : List String) :
    (scanned inp owned conf).head?.any isPeerHeader =
    (conf.dropWhile isMarker).head?.any isPeerHeader := by
  have hscan : ∀ (xs : List String) (s : HubScan), s.inPeer = false → s.out = [] →
      (xs.foldl (HubScan.line inp owned) s).out.head?.any isPeerHeader =
        (xs.dropWhile isMarker).head?.any isPeerHeader := by
    intro xs
    induction xs with
    | nil =>
      intro s _ hout
      rw [List.foldl_nil, hout]
      rfl
    | cons l xs ih =>
      intro s hs hout
      obtain ⟨hwrote, hin⟩ := hub_line_wrote inp owned s l
      rw [List.foldl_cons, List.dropWhile_cons]
      split
      · next hm =>
        have hhead : isHeader l = false := Bool.eq_false_iff.mpr fun hl => by
          rw [isMarker_of_header hl] at hm
          cases hm
        refine ih _ ?_ ?_
        · rw [hin, hhead, if_neg Bool.false_ne_true, hs]
        · rw [hwrote, hout, HubScan.wrote, if_neg (by simp [hhead]), if_neg (by simp [hs]),
            outsideLines, if_pos hm]
          rfl
      · next hm =>
        obtain ⟨m, ms, hlines, hpeer⟩ := exists_wrote inp owned hs (Bool.eq_false_iff.mpr hm)
        obtain ⟨ys, hys⟩ := exists_foldl_out inp owned xs (s.line inp owned l)
        rw [hys, hwrote, hout, hlines]
        exact hpeer
  exact hscan conf ⟨false, none, false, []⟩ rfl rfl

theorem inPeerAfter_insertAt (inp : HubInput) (owned conf : List String) :
    inPeerAfter false ((scanned inp owned conf).take (insertAt conf (scanned inp owned conf))) =
      intoPeer conf := by
  rw [insertAt, intoPeer]
  cases hdown : lacks false conf with
  | false =>
    obtain ⟨front, m, rest, hout, hm, -, hfront, hin⟩ := exists_first_hook inp owned hdown
    rw [if_neg Bool.false_ne_true, if_neg Bool.false_ne_true, hout, findIdx_of_split hfront hm,
      List.take_left]
    exact hin
  | true =>
    rw [if_pos rfl, if_pos rfl]
    cases hup : lacks true conf with
    | false =>
      obtain ⟨front, m, rest, hout, hm, hhead, hfront, hin⟩ := exists_first_hook inp owned hup
      have htake : (front ++ m :: rest).take (front.length + 1) = front ++ [m] := by
        simp [List.take_append]
      have hplain : ∀ k ∈ [m], isHeader k = false := fun k hk => List.mem_singleton.mp hk ▸ hhead
      rw [if_neg Bool.false_ne_true, if_neg Bool.false_ne_true, hout, findIdx_of_split hfront hm,
        htake, inPeerAfter_append,
        inPeerAfter_plain hplain]
      exact hin
    | true =>
      rw [if_pos rfl, if_pos rfl, ← head?_scanned inp owned conf,
        ← inPeerAfter_scanned inp owned conf]
      generalize scanned inp owned conf = out
      cases out with
      | nil => rfl
      | cons l out =>
        rw [List.head?_cons, Option.any_some, List.findIdx_cons]
        cases hl : isPeerHeader l with
        | true => simp
        | false =>
          rw [cond_false, if_pos (Nat.succ_pos _), Bool.false_and]
          refine inPeerAfter_of_no_peer fun m hm => ?_
          rw [List.take_succ_cons] at hm
          rcases List.mem_cons.mp hm with rfl | hm
          · exact hl
          · obtain ⟨i, hi, rfl⟩ := List.mem_iff_getElem.mp hm
            rw [List.getElem_take]
            rw [List.length_take] at hi
            have hlt : i < out.findIdx isPeerHeader := by omega
            exact List.not_of_lt_findIdx hlt

/-! The conf after the rewrite. -/

theorem rewriteHubConf_eq (inp : HubInput) (conf : List String) :
    rewriteHubConf inp conf = injectHooks inp conf (scanned inp (inp.ownedMasq conf) conf) := rfl

theorem rewriteHubConf_of_not (h : injects inp conf = false) :
    rewriteHubConf inp conf = scanned inp (inp.ownedMasq conf) conf := by
  rw [rewriteHubConf_eq, injectHooks_eq, h, if_neg Bool.false_ne_true]

theorem isHeader_hookText (isUp : Bool) (value : String) :
    isHeader (hookText isUp value) = false := by
  cases isUp with
  | true => exact isHeader_of_head (c := 'P') String.toList_append (by decide) (by decide)
  | false => exact isHeader_of_head (c := 'P') String.toList_append (by decide) (by decide)

theorem plain_injectedLines (inp : HubInput) (conf : List String) :
    ∀ l ∈ injectedLines inp conf, isHeader l = false := by
  intro l hl
  rcases List.mem_append.mp hl with hl | hl
  · split at hl
    · rcases List.mem_cons.mp hl with rfl | hl
      · exact isHeader_masqMarkerLine _
      · rw [List.mem_singleton.mp hl]
        exact isHeader_hookText true _
    · cases hl
  · split at hl
    · rw [List.mem_singleton.mp hl]
      exact isHeader_hookText false _
    · cases hl

/-- The lacking hooks change one section of the scan. -/
theorem exists_injected (h : injects inp conf = true) : ∃ pre sec sec' post,
    sections (scanned inp (inp.ownedMasq conf) conf) = pre ++ sec :: post ∧
      sections (rewriteHubConf inp conf) = pre ++ sec' :: post ∧ sec'.header = sec.header ∧
      sec.isPeer = intoPeer conf ∧
      ∃ a b, sec.body = a ++ b ∧ sec'.body = a ++ injectedLines inp conf ++ b := by
  let out := scanned inp (inp.ownedMasq conf) conf
  obtain ⟨pre, sec, sec', post, hins⟩ := exists_inserted (plain_injectedLines inp conf)
    (out.take (insertAt conf out)) (out.drop (insertAt conf out))
  refine ⟨pre, sec, sec', post, ?_, ?_, hins.header, ?_, hins.body⟩
  · rw [← hins.before, List.take_append_drop]
  · rw [← hins.after, rewriteHubConf_eq, injectHooks_eq, h, if_pos rfl]
  · rw [hins.isPeer, inPeerAfter_insertAt]

theorem isHook_injectedHook (inp : HubInput) (isUp : Bool) :
    isHook isUp (injectedHook inp isUp) = true := hookText_isHook isUp _

/-- A hook is added outside the peers. -/
def adds (inp : HubInput) (isUp : Bool) (conf : List String) : Bool :=
  injects inp conf && lacks isUp conf && !intoPeer conf

end FloppyGuard.WireGuard
