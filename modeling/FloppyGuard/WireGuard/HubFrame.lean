import FloppyGuard.WireGuard.HookCmds

/-! What `_rewriteHubConf` leaves of a conf, and what the hooks hold that it writes. -/
namespace FloppyGuard.WireGuard

open Text

variable {inp : HubInput} {owned conf xs : List String} {sec : Section} {l : String} {isUp w : Bool}
  {cmd : List Char} {cmds : List (List Char)}

/-! Every line that is neither a hook nor the marker. -/

/-- The marker, or a line that starts like the ones that are written. -/
def isRecord (l : String) : Bool := isMarker l || startsWith "# floppyguard-masq:" (trim l.toList)

/-- A line that is the operator's alone. -/
def ordinary (l : String) : Bool := !isRecord l && !isHook true l && !isHook false l

theorem isRecord_masqMarkerLine (nics : List Nic) : isRecord (masqMarkerLine nics) = true := by
  obtain ⟨value, hvalue⟩ : ∃ value, masqMarkerLine nics = "# floppyguard-masq: " ++ value :=
    ⟨_, rfl⟩
  obtain ⟨t, ht⟩ := trim_append_cons (p := "# floppyguard-masq".toList) (c := ':') (by decide)
    (by decide) (' ' :: value.toList)
  have htext : (masqMarkerLine nics).toList = "# floppyguard-masq".toList ++ ':' :: ' ' ::
      value.toList := by
    rw [hvalue, String.toList_append]
    rfl
  rw [isRecord, htext, ht, Bool.or_eq_true]
  right
  exact List.isPrefixOf_iff_prefix.mpr ⟨t, by simp⟩

theorem ordinary_of_isHook (h : isHook isUp l = true) : ordinary l = false := by
  rw [ordinary]
  cases isUp with
  | true => simp [h]
  | false => simp [h]

theorem ordinary_of_isRecord (h : isRecord l = true) : ordinary l = false := by
  rw [ordinary, h]
  rfl

theorem filter_outsideLines_ordinary (inp : HubInput) (owned : List String) (w : Bool)
    (l : String) :
    (outsideLines inp owned w l).filter ordinary = [l].filter ordinary := by
  have hhook : ∀ up, ordinary (hookLine inp owned up l) = false :=
    fun up => ordinary_of_isHook (isHook_hookLine up)
  have hrecord : ordinary (masqMarkerLine inp.masqueradeIfaces) = false :=
    ordinary_of_isRecord (isRecord_masqMarkerLine _)
  unfold outsideLines
  split
  · next hm =>
    have hl : ordinary l = false := ordinary_of_isRecord (by rw [isRecord, hm, Bool.true_or])
    simp [hl]
  split
  · next hup =>
    have hl : ordinary l = false := ordinary_of_isHook hup
    cases w <;> simp [hl, hhook, hrecord]
  split
  · next hdown =>
    have hl : ordinary l = false := ordinary_of_isHook hdown
    simp [hl, hhook]
  · rfl

theorem filter_rewriteOutside_ordinary (inp : HubInput) (owned : List String) (w : Bool)
    (body : List String) :
    (rewriteOutside inp owned w body).filter ordinary = body.filter ordinary := by
  induction body generalizing w with
  | nil => rfl
  | cons l body ih =>
    rw [rewriteOutside, List.filter_append, filter_outsideLines_ordinary, ih, ← List.filter_append,
      List.singleton_append]

/-- A section as far as it is the operator's. -/
def Section.frame (sec : Section) : Option String × List String :=
  (sec.header, sec.body.filter ordinary)

/-- What a section should be like after a rewrite: only the networks of its peer are new. -/
def Section.updated (updates : Table String (List String)) (sec : Section) :
    Option String × List String :=
  (sec.header, (if sec.isPeer then rewritePeer updates none sec.body else sec.body).filter ordinary)

theorem frame_rewrite (inp : HubInput) (owned : List String) (w : Bool) (sec : Section) :
    (sec.rewrite inp owned w).frame = sec.updated inp.peerUpdates := by
  refine Prod.ext rfl ?_
  rw [Section.frame, Section.updated, Section.rewrite]
  split
  · rfl
  · exact filter_rewriteOutside_ordinary inp owned w sec.body

theorem frame_rewriteSections (inp : HubInput) (owned : List String) (w : Bool)
    (secs : List Section) :
    (rewriteSections inp owned w secs).map Section.frame = secs.map
    (Section.updated inp.peerUpdates) := by
  induction secs generalizing w with
  | nil => rfl
  | cons sec secs ih => rw [rewriteSections, List.map_cons, List.map_cons, frame_rewrite, ih]

theorem filter_injectedLines_ordinary (inp : HubInput) (conf : List String) :
    (injectedLines inp conf).filter ordinary = [] := by
  have hhook : ∀ up, ordinary (injectedHook inp up) = false :=
    fun up => ordinary_of_isHook (isHook_injectedHook inp up)
  have hrecord : ordinary (masqMarkerLine inp.masqueradeIfaces) = false :=
    ordinary_of_isRecord (isRecord_masqMarkerLine _)
  rw [injectedLines]
  cases lacks true conf <;> cases lacks false conf <;> simp [hhook, hrecord]

/-- The lines of the peers. -/
def peers (conf : List String) : List (List String) :=
  ((sections conf).filter Section.isPeer).map Section.body

theorem peers_rewriteSections (inp : HubInput) (owned : List String) (w : Bool)
    (secs : List Section) :
    ((rewriteSections inp owned w secs).filter Section.isPeer).map Section.body =
      ((secs.filter Section.isPeer).map Section.body).map (rewritePeer inp.peerUpdates none) := by
  induction secs generalizing w with
  | nil => rfl
  | cons sec secs ih =>
    have hpeer : (sec.rewrite inp owned w).isPeer = sec.isPeer := rfl
    rw [rewriteSections, List.filter_cons, List.filter_cons, hpeer]
    split
    · next hsec =>
      have hbody : (sec.rewrite inp owned w).body = rewritePeer inp.peerUpdates none sec.body :=
        if_pos hsec
      rw [List.map_cons, List.map_cons, List.map_cons, hbody, ih]
    · exact ih _

theorem frame_rewriteHubConf (inp : HubInput) (conf : List String) :
    (sections (rewriteHubConf inp conf)).map Section.frame =
      (sections conf).map (Section.updated inp.peerUpdates) := by
  have hscan := frame_rewriteSections inp (inp.ownedMasq conf) false (sections conf)
  rw [← sections_scanned] at hscan
  cases hinj : injects inp conf with
  | false => rw [rewriteHubConf_of_not hinj, hscan]
  | true =>
    obtain ⟨pre, sec, sec', post, hbefore, hafter, hheader, -, a, b, hbody, hbody'⟩ :=
      exists_injected hinj
    have hframe : sec'.frame = sec.frame := by
      rw [Section.frame, Section.frame, hheader, hbody, hbody', List.filter_append,
        List.filter_append,
        filter_injectedLines_ordinary, List.append_nil, List.filter_append]
    rw [← hscan, hbefore, hafter, List.map_append, List.map_append, List.map_cons, List.map_cons,
      hframe]

/-- Where no lacking hook goes into a peer, a peer is as `rewritePeer` leaves it. -/
theorem peers_rewriteHubConf (h : (injects inp conf && intoPeer conf) = false) :
    peers (rewriteHubConf inp conf) = (peers conf).map (rewritePeer inp.peerUpdates none) := by
  have hscan := peers_rewriteSections inp (inp.ownedMasq conf) false (sections conf)
  rw [← sections_scanned] at hscan
  cases hinj : injects inp conf with
  | false => rw [peers, peers, rewriteHubConf_of_not hinj, hscan]
  | true =>
    rw [hinj, Bool.true_and] at h
    obtain ⟨pre, sec, sec', post, hbefore, hafter, hheader, hpeer, -⟩ := exists_injected hinj
    have hout : sec.isPeer = false := hpeer.trans h
    have hout' : sec'.isPeer = false := by rw [Section.isPeer, hheader, ← Section.isPeer, hout]
    rw [peers, peers, ← hscan, hbefore, hafter]
    simp only [List.filter_append, List.filter_cons, hout, hout', Bool.false_eq_true, if_false]

/-- The sections of the rewritten conf are those of the old one, in order. Outside the peers every
line stays that is no hook and no marker, and in a peer the `AllowedIPs` lines below a key with an
update are new and nothing else, up to hooks and markers where a lacking hook goes into a peer. -/
theorem rewriteHubConf_frame (inp : HubInput) (conf : List String) :
    (sections (rewriteHubConf inp conf)).map Section.frame = (sections conf).map
    (Section.updated inp.peerUpdates) ∧
      ((injects inp conf && intoPeer conf) = false →
        peers (rewriteHubConf inp conf) = (peers conf).map (rewritePeer inp.peerUpdates none)) :=
  ⟨frame_rewriteHubConf inp conf, peers_rewriteHubConf⟩

/-! The commands of the hooks. -/

/-- A text that is one word of one command. -/
def isWord (s : String) : Bool := s ≠ "" && s.toList.all fun c => !isSpace c && c ≠ ';'

/-- The names and networks to write are words. -/
structure HubInput.Plain (inp : HubInput) : Prop where
  ifaceName : isWord inp.ifaceName = true
  nets : ∀ net ∈ inp.allRouteNets, isWord net = true
  nics : ∀ nic ∈ inp.masqueradeIfaces, isWord nic.name = true ∧ isWord nic.cidr = true

def HubInput.generated (inp : HubInput) (isUp : Bool) : List (List Char) :=
  (hookCmds isUp inp.ifaceName inp.allRouteNets inp.masqueradeIfaces).map String.toList

end FloppyGuard.WireGuard
