import FloppyGuard.WireGuard.ConfPeers
import FloppyGuard.WireGuard.ConfSync
import FloppyGuard.WireGuard.LiveNat

/-! `_rewriteHubConf` section by section, and where the hooks go that a conf lacks. -/
namespace FloppyGuard.WireGuard

open Text

variable {inp : HubInput} {owned conf xs ys zs body : List String} {sec : Section} {l : String}
  {w : Bool} {s : HubScan}
  {updates : Table String (List String)} {key : Option String}

def isMarker (l : String) : Bool := (masqMarker (trim l.toList)).isSome

/-- A line of one of the two hooks, as far as it starts with its name. -/
def isHook (isUp : Bool) (l : String) : Bool :=
  startsWith (if isUp then "PostUp" else "PostDown") (trim l.toList)

/-! What becomes of a section. -/

/-- The key that is known below a line of a peer. -/
def keyAfter (key : Option String) (l : String) : Option String :=
  if startsWith "PublicKey" (trim l.toList) then
    some (String.ofList (trim (afterEq (trim l.toList)))) else key

/-- An `AllowedIPs` line is written anew when the key above it has an update. -/
def peerLine (updates : Table String (List String)) (key : Option String) (l : String) : String :=
  if startsWith "PublicKey" (trim l.toList) then l
  else if startsWith "AllowedIPs" (trim l.toList) then
    match key.filter (· ≠ "") |>.bind updates.get? with
    | some newIPs => "AllowedIPs = " ++ ", ".intercalate newIPs
    | none => l
  else l

def rewritePeer (updates : Table String (List String)) : Option String → List String → List String
  | _, [] => []
  | key, l :: ls => peerLine updates key l :: rewritePeer updates (keyAfter key l) ls

/-- An old marker goes, a hook is written anew, and the first `PostUp` has the marker above it. -/
def outsideLines (inp : HubInput) (owned : List String) (w : Bool) (l : String) : List String :=
  if isMarker l then []
  else if isHook true l then (if w then [] else [masqMarkerLine inp.masqueradeIfaces]) ++
    [hookLine inp owned true l]
  else if isHook false l then [hookLine inp owned false l]
  else [l]

def rewriteOutside (inp : HubInput) (owned : List String) : Bool → List String → List String
  | _, [] => []
  | w, l :: ls => outsideLines inp owned w l ++ rewriteOutside inp owned (w || isHook true l) ls

theorem isHeader_allowedIPs (v : String) : isHeader ("AllowedIPs = " ++ v) = false :=
  isHeader_of_head (c := 'A') String.toList_append (by decide) (by decide)

theorem isHeader_hookLine {isUp : Bool} : isHeader (hookLine inp owned isUp l) = false :=
  (plain_hook (T := l)).1

theorem isHeader_masqMarkerLine (nics : List Nic) : isHeader (masqMarkerLine nics) = false :=
  (plain_marker (T := "") nics).1

theorem plain_cons (hl : isHeader l = false) (h : ∀ m ∈ xs, isHeader m = false) :
    ∀ m ∈ l :: xs, isHeader m = false := by
  intro m hm
  rcases List.mem_cons.mp hm with rfl | hm
  · exact hl
  · exact h m hm

theorem isHeader_peerLine (h : isHeader l = false) : isHeader (peerLine updates key l) = false := by
  unfold peerLine
  split
  · exact h
  split
  · split
    · exact isHeader_allowedIPs _
    · exact h
  · exact h

theorem plain_outsideLines (inp : HubInput) (owned : List String) (w : Bool)
    (h : isHeader l = false) : ∀ m ∈ outsideLines inp owned w l, isHeader m = false := by
  unfold outsideLines
  split
  · exact List.forall_mem_nil _
  split
  · have hhook : ∀ m ∈ [hookLine inp owned true l], isHeader m = false :=
      plain_cons isHeader_hookLine (List.forall_mem_nil _)
    split
    · exact hhook
    · exact plain_cons (isHeader_masqMarkerLine _) hhook
  split
  · exact plain_cons isHeader_hookLine (List.forall_mem_nil _)
  · exact plain_cons h (List.forall_mem_nil _)

theorem plain_rewritePeer (h : ∀ l ∈ xs, isHeader l = false) (key : Option String) :
    ∀ l ∈ rewritePeer updates key xs, isHeader l = false := by
  induction xs generalizing key with
  | nil => exact nofun
  | cons l xs ih =>
    exact plain_cons (isHeader_peerLine (h l List.mem_cons_self))
      (ih (fun m hm => h m (List.mem_cons_of_mem _ hm)) _)

theorem plain_rewriteOutside (h : ∀ l ∈ xs, isHeader l = false) (w : Bool) :
    ∀ l ∈ rewriteOutside inp owned w xs, isHeader l = false := by
  induction xs generalizing w with
  | nil => exact nofun
  | cons l xs ih =>
    intro m hm
    rcases List.mem_append.mp hm with hm | hm
    · exact plain_outsideLines inp owned w (h l List.mem_cons_self) m hm
    · exact ih (fun m hm => h m (List.mem_cons_of_mem _ hm)) _ m hm

namespace Section

def rewrite (inp : HubInput) (owned : List String) (w : Bool) (sec : Section) : Section where
  header := sec.header
  body := if sec.isPeer then rewritePeer inp.peerUpdates none sec.body
    else rewriteOutside inp owned w sec.body
  headed := sec.headed
  plain := by
    split
    · exact plain_rewritePeer sec.plain none
    · exact plain_rewriteOutside sec.plain w

/-- The marker stands above a `PostUp` line of the section. -/
def marks (sec : Section) : Bool := !sec.isPeer && sec.body.any (isHook true)

end Section

def rewriteSections (inp : HubInput) (owned : List String) : Bool → List Section → List Section
  | _, [] => []
  | w, sec :: secs => sec.rewrite inp owned w :: rewriteSections inp owned (w || sec.marks) secs

/-! The scan goes over a conf section by section. -/

theorem isMarker_of_header (h : isHeader l = true) : isMarker l = false := by
  have hstart : startsWith "[" (trim l.toList) = true := h
  rw [isMarker, masqMarker_of_startsWith (by decide) hstart]
  rfl

theorem hub_line_header (h : isHeader l = true) :
    s.line inp owned l = ⟨isPeerHeader l, none, s.markerWritten, s.out ++ [l]⟩ := by
  have hmarker : (masqMarker (trim l.toList)).isSome = false := isMarker_of_header h
  have hhead : startsWith "[" (trim l.toList) = true := h
  unfold HubScan.line
  dsimp only
  rw [if_neg (by simp [hmarker])]
  by_cases hpeer : trim l.toList = "[Peer]".toList
  · rw [if_pos hpeer, isPeerHeader, decide_eq_true hpeer]
  · rw [if_neg hpeer, if_pos hhead, isPeerHeader, decide_eq_false hpeer]

/-- Inside a peer only the key and the networks matter. -/
theorem hub_line_inPeer (hs : s.inPeer = true) (h : isHeader l = false) : s.line inp owned l =
    ⟨true, keyAfter s.currentPubKey l, s.markerWritten,
      s.out ++ [peerLine inp.peerUpdates s.currentPubKey l]⟩ := by
  have hpeer : trim l.toList ≠ "[Peer]".toList := of_decide_eq_false (isPeerHeader_eq_false h)
  have hhead : ¬ startsWith "[" (trim l.toList) = true := Bool.eq_false_iff.mp h
  unfold HubScan.line keyAfter peerLine
  dsimp only
  rw [if_neg (by simp [hs]), if_neg hpeer, if_neg hhead, hs, Bool.true_and, Bool.true_and]
  split
  · rfl
  split
  · generalize (s.currentPubKey.filter (· ≠ "") |>.bind inp.peerUpdates.get?) = newIPs
    cases newIPs with
    | none => rfl
    | some _ => rfl
  · rfl

theorem isHook_of_marker (h : isMarker l = true) (isUp : Bool) : isHook isUp l = false := by
  by_contra hhook
  have hstart : startsWith (if isUp then "PostUp" else "PostDown") (trim l.toList) = true := by
    simpa [isHook] using hhook
  rw [isMarker, masqMarker_of_startsWith (by cases isUp <;> decide) hstart] at h
  cases h

theorem hub_line_outside (hs : s.inPeer = false) (h : isHeader l = false) : s.line inp owned l =
    ⟨false, s.currentPubKey, s.markerWritten || isHook true l,
      s.out ++ outsideLines inp owned s.markerWritten l⟩ := by
  have hpeer : trim l.toList ≠ "[Peer]".toList := of_decide_eq_false (isPeerHeader_eq_false h)
  have hhead : ¬ startsWith "[" (trim l.toList) = true := Bool.eq_false_iff.mp h
  have hself : s = ⟨false, s.currentPubKey, s.markerWritten, s.out⟩ := by rw [← hs]
  unfold outsideLines
  by_cases hmarker : isMarker l = true
  · have hsome : (masqMarker (trim l.toList)).isSome = true := hmarker
    rw [if_pos hmarker, isHook_of_marker hmarker, Bool.or_false, List.append_nil, HubScan.line,
      if_pos (by simp [hs, hsome])]
    exact hself
  · have hnone : ¬ (masqMarker (trim l.toList)).isSome = true := hmarker
    unfold HubScan.line isHook
    dsimp only
    rw [if_neg hmarker, if_neg (by simp [hnone]), if_neg hpeer, if_neg hhead, hs]
    simp only [Bool.false_and, Bool.not_false, Bool.true_and, if_true, Bool.false_eq_true, if_false]
    cases hup : startsWith "PostUp" (trim l.toList) with
    | true =>
      cases hw : s.markerWritten <;> simp
    | false =>
      cases hdown : startsWith "PostDown" (trim l.toList) with
      | true => simp
      | false => simp

theorem hub_foldl_inPeer (inp : HubInput) (owned : List String) (hs : s.inPeer = true)
    (h : ∀ l ∈ xs, isHeader l = false) :
    let t := xs.foldl (HubScan.line inp owned) s
    t.inPeer = true ∧ t.markerWritten = s.markerWritten ∧
      t.out = s.out ++ rewritePeer inp.peerUpdates s.currentPubKey xs := by
  induction xs generalizing s with
  | nil => exact ⟨hs, rfl, (List.append_nil _).symm⟩
  | cons l xs ih =>
    rw [List.foldl_cons, hub_line_inPeer hs (h l List.mem_cons_self)]
    obtain ⟨hin, hw, hout⟩ := ih (s := ⟨true, _, _, _⟩) rfl fun m hm =>
      h m (List.mem_cons_of_mem _ hm)
    exact ⟨hin, hw, by rw [hout, List.append_assoc]; rfl⟩

theorem hub_foldl_outside (inp : HubInput) (owned : List String) (hs : s.inPeer = false)
    (h : ∀ l ∈ xs, isHeader l = false) :
    let t := xs.foldl (HubScan.line inp owned) s
    t.inPeer = false ∧ t.markerWritten = (s.markerWritten || xs.any (isHook true)) ∧
      t.out = s.out ++ rewriteOutside inp owned s.markerWritten xs := by
  induction xs generalizing s with
  | nil => exact ⟨hs, (Bool.or_false _).symm, (List.append_nil _).symm⟩
  | cons l xs ih =>
    rw [List.foldl_cons, hub_line_outside hs (h l List.mem_cons_self)]
    obtain ⟨hin, hw, hout⟩ := ih (s := ⟨false, _, _, _⟩) rfl fun m hm =>
      h m (List.mem_cons_of_mem _ hm)
    refine ⟨hin, ?_, ?_⟩
    · rw [hw, List.any_cons, Bool.or_assoc]
    · rw [hout, rewriteOutside, List.append_assoc]

/-- What the scan keeps from one section to the next. -/
def HubScan.kept (s : HubScan) : Bool × List String := (s.markerWritten, s.out)

def keptSection (inp : HubInput) (owned : List String) (p : Bool × List String) (sec : Section) :
    Bool × List String :=
  (p.1 || sec.marks, p.2 ++ (sec.rewrite inp owned p.1).lines)

theorem hub_foldl_section {init : HubScan} (hinit : init.inPeer = false)
    (hsec : sec.header.isSome = true ∨ s = init) :
    (sec.lines.foldl (HubScan.line inp owned) s).kept = keptSection inp owned s.kept sec := by
  obtain ⟨header, body, headed, plain⟩ := sec
  cases header with
  | none =>
    obtain rfl : s = init := hsec.resolve_left nofun
    obtain ⟨-, hw, hout⟩ := hub_foldl_outside inp owned hinit plain
    exact Prod.ext hw hout
  | some head =>
    have hhead := headed head rfl
    rw [Section.lines, Option.toList_some, List.singleton_append, List.foldl_cons,
      hub_line_header hhead]
    cases hpeer : isPeerHeader head with
    | true =>
      obtain ⟨-, hw, hout⟩ :=
        hub_foldl_inPeer inp owned (s := ⟨true, none, s.markerWritten, s.out ++ [head]⟩) rfl plain
      refine Prod.ext (hw.trans ?_) (hout.trans ?_)
      · simp [keptSection, HubScan.kept, Section.marks, Section.isPeer, hpeer]
      · simp [keptSection, HubScan.kept, Section.rewrite, Section.lines, Section.isPeer, hpeer]
    | false =>
      obtain ⟨-, hw, hout⟩ :=
        hub_foldl_outside inp owned (s := ⟨false, none, s.markerWritten, s.out ++ [head]⟩) rfl plain
      refine Prod.ext (hw.trans ?_) (hout.trans ?_)
      · simp [keptSection, HubScan.kept, Section.marks, Section.isPeer, hpeer]
      · simp [keptSection, HubScan.kept, Section.rewrite, Section.lines, Section.isPeer, hpeer]

/-- The lines of the scan, before hooks are added. -/
def scanned (inp : HubInput) (owned conf : List String) : List String :=
  (conf.foldl (HubScan.line inp owned) ⟨false, none, false, []⟩).out

theorem scanned_eq (inp : HubInput) (owned conf : List String) :
    scanned inp owned conf = (rewriteSections inp owned false (sections conf)).flatMap
      Section.lines := by
  have hsecs : ∀ (secs : List Section) (p : Bool × List String),
    (secs.foldl (keptSection inp owned) p).2 =
      p.2 ++ (rewriteSections inp owned p.1 secs).flatMap Section.lines := by
    intro secs
    induction secs with
    | nil => exact fun p => (List.append_nil _).symm
    | cons sec secs ih =>
      intro p
      rw [List.foldl_cons, ih, rewriteSections, List.flatMap_cons, keptSection, List.append_assoc]
  have hscan : (conf.foldl (HubScan.line inp owned) ⟨false, none, false, []⟩).kept =
      (sections conf).foldl (keptSection inp owned) (HubScan.kept ⟨false, none, false, []⟩) :=
    foldl_by_section (fun s sec hsec => hub_foldl_section rfl hsec) conf
  exact (congrArg Prod.snd hscan).trans (hsecs _ _)

theorem sections_scanned (inp : HubInput) (owned conf : List String) :
    sections (scanned inp owned conf) = rewriteSections inp owned false (sections conf) := by
  obtain ⟨first, rest, heq, hfirst, hrest⟩ := sections_cons conf
  have hheaded : ∀ (secs : List Section) (w : Bool), (∀ sec ∈ secs, sec.header.isSome = true) →
      ∀ sec ∈ rewriteSections inp owned w secs, sec.header.isSome = true := by
    intro secs
    induction secs with
    | nil => exact fun _ _ => nofun
    | cons sec secs ih =>
      intro w h t ht
      rcases List.mem_cons.mp ht with rfl | ht
      · exact h sec List.mem_cons_self
      · exact ih _ (fun sec hsec => h sec (List.mem_cons_of_mem _ hsec)) t ht
  rw [scanned_eq, heq, rewriteSections]
  have hnone : (first.rewrite inp owned false).header = none := hfirst
  exact sections_flatMap hnone (hheaded rest _ hrest)

end FloppyGuard.WireGuard
