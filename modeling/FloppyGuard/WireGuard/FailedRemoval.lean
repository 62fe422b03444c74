import FloppyGuard.Lib.Checked
import FloppyGuard.WireGuard.HubHooks
import FloppyGuard.WireGuard.PeerRemoval
import FloppyGuard.WireGuard.Revocation
import FloppyGuard.WireGuard.Allocation

/-! `deletePeer` when some of its steps fail: where the peer is left, and whether a second call gets
rid of it. -/
namespace FloppyGuard.WireGuard.FailedRemoval

open Text
open Revocation (splitId linkMetas)

/-- The three stores a peer is in; there may be no conf. -/
structure Stores where
  conf : Option (List String)
  live : Table String (List String)
  links : Table String LinkEntry

inductive Errno
  | enoent
  | other

structure WriteError where
  errno : Errno
  message : String

/-- The steps of one call that fail, most of them with the message of their error. A conf that is
missing is not among them, and what fails from `dump` on is only reported. -/
structure Failures where
  status : Option String
  boundAgents : Option String
  backup : Option String
  /-- the second look at the bound agents, under the lock -/
  boundAgentsLocked : Option String
  confRead : Option String
  confWrite : Option WriteError
  liveRemoval : Bool
  metadata : Option String
  dump : Bool
  /-- the sync of the conf fails before it writes -/
  hubSync : Bool
  /-- the peers that `wg set` fails for -/
  setPeer : String → Bool

def Failures.none : Failures :=
  ⟨.none, .none, .none, .none, .none, .none, false, .none, false, false, fun _ => false⟩

inductive Answer
  | deleted
  | rejected (message : String)
deriving DecidableEq

/-- `_resolveLink` where `ifaceName` is the interface there is. -/
def resolveLink (ifaceName : String) (status : Option String) (id : String) (s : Stores) :
    Except String LinkRecord :=
  if ':' ∉ id.toList then .error "Invalid linkId format — expected ifaceName:publicKey"
  else match splitId id with
    | none => .error "Invalid linkId — interface name and public key are required"
    | some (name, _) =>
      match status with
      | some message => .error message
      | none =>
        if name ≠ ifaceName then .error ("Interface " ++ name ++ " not found")
        else match (statusLinks ifaceName s.links s.live).find? (·.id = id) with
          | none => .error ("Link not found: " ++ id)
          | some link => .ok link

def succeeds : Option String → Except String Unit
  | some message => .error message
  | none => .ok ()

/-- The conf that is left. A write that fails as if there were no conf counts as a missing conf. -/
def rewriteConf (ifaceName key : String) (f : Failures) (conf : Option (List String)) :
    Except String (Option (List String)) :=
  let notRewritten (message : String) : String :=
    ifaceName ++ ".conf could not be rewritten (" ++ message ++
    ") — nothing was removed (live peer, conf and link kept); fix the conf and delete again"
  match f.confRead, conf, f.confWrite with
  | some message, _, _ => .error (notRewritten message)
  | none, none, _ => .ok none
  | none, some lines, none => .ok (some (removePeerFromConf lines key))
  | none, some _, some ⟨.other, message⟩ => .error (notRewritten message)
  | none, some lines, some ⟨.enoent, _⟩ => .ok (some lines)

/-- What precedes the first change to the live interface, without bound agents. -/
def cutConf (ifaceName id : String) (f : Failures) (s : Stores) :
    Except String (Option (List String)) := do
  let _ ← resolveLink ifaceName f.status id s
  succeeds f.boundAgents
  succeeds f.backup
  succeeds f.boundAgentsLocked
  rewriteConf ifaceName (Revocation.publicKeyOf id) f s.conf

def setPeer (f : Failures) (live : Table String (List String)) (u : String × List String) :
    Table String (List String) :=
  if f.setPeer u.1 then live else KeyRotation.addPeer live u.1 u.2

/-- `syncHubConf` after the peer is gone. -/
def hubSync (ifaceName : String) (f : Failures) (physicalIfaces : List Nic) (s : Stores) : Stores :=
  match s.conf with
  | none => s
  | some lines =>
    if f.hubSync then s
    else
      let reads : SyncReads :=
        ⟨linkMetas s.links, if f.dump then none else some s.live, physicalIfaces⟩
      { s with
        conf := some (syncHubConf ifaceName reads lines)
        live := (hubUpdates ifaceName reads (parsePeersFromConf lines)).entries.foldl (setPeer f)
          s.live }

/-- `deletePeer` -/
def deletePeer (ifaceName id : String) (f : Failures) (physicalIfaces : List Nic) (s : Stores) :
    Answer × Stores :=
  match cutConf ifaceName id f s with
  | .error message => (.rejected message, s)
  | .ok conf =>
    let unplugged : Stores :=
      ⟨conf, if f.liveRemoval then s.live else s.live.erase (Revocation.publicKeyOf id), s.links⟩
    match f.metadata with
    | some message => (.rejected message, unplugged)
    | none =>
      (.deleted, hubSync ifaceName f physicalIfaces { unplugged with links := s.links.erase id })

/-! The peer in the three stores. -/

/-- A peer of the conf names the key. -/
def hasPeer (key : String) (lines : List String) : Bool :=
  (sections lines).any fun sec => sec.isPeer && sec.names key

structure Gone (id : String) (s : Stores) : Prop where
  conf : s.conf.any (hasPeer (Revocation.publicKeyOf id)) = false
  live : s.live.get? (Revocation.publicKeyOf id) = none
  links : s.links.get? id = none

/-- A resolved call leaves nothing of the peer, and after a rejected one a second call in which
nothing fails does. -/
def Completes (ifaceName id : String) (f : Failures) (physicalIfaces : List Nic) (s : Stores) :
    Prop :=
  match deletePeer ifaceName id f physicalIfaces s with
  | (.deleted, t) => Gone id t
  | (.rejected _, t) => ∀ nics, (deletePeer ifaceName id .none nics t).1 = .deleted ∧
      Gone id (deletePeer ifaceName id .none nics t).2

/-- A step fails that is checked before anything changes. -/
def Failures.early (f : Failures) (s : Stores) : Bool :=
  f.status.isSome || f.boundAgents.isSome || f.backup.isSome || f.boundAgentsLocked.isSome ||
    f.confRead.isSome ||
    s.conf.isSome && f.confWrite.any fun e => e.errno matches .other

/-- The conf keeps the peer because its write failed as if there were no conf. -/
def Failures.keepsPeer (f : Failures) (key : String) (s : Stores) : Bool :=
  f.confWrite.any (fun e => e.errno matches .enoent) && s.conf.any (hasPeer key)

variable {ifaceName id key : String} {f : Failures} {nics : List Nic} {s t : Stores}
  {link : LinkRecord}
  {lines : List String} {sec : Section} {inp : HubInput} {l : String}

/-! A rewritten conf has the peers it had. -/

theorem isNamed_of_startsWith (h : startsWith "PublicKey" (trim l.toList) = false) :
    isNamed key l = false := by
  rw [isNamed, h, Bool.false_and]

theorem isNamed_of_head {c : Char} {t : List Char} (h : l.toList = c :: t) (hc : isSpace c = false)
    (hne : c ≠ 'P') :
    isNamed key l = false := by
  obtain ⟨t', ht'⟩ := trim_cons hc t
  apply isNamed_of_startsWith
  rw [h, ht', startsWith]
  simp [List.isPrefixOf, hne.symm]

theorem isNamed_of_isHook {isUp : Bool} (h : isHook isUp l = true) : isNamed key l = false := by
  obtain ⟨t, ht⟩ := List.isPrefixOf_iff_prefix.mp h
  apply isNamed_of_startsWith
  rw [← ht]
  cases isUp <;> rfl

theorem isNamed_peerLine (updates : Table String (List String)) (above : Option String)
    (l : String) :
    isNamed key (peerLine updates above l) = isNamed key l := by
  unfold peerLine
  split
  · rfl
  next hkey =>
  have hl : isNamed key l = false := isNamed_of_startsWith (Bool.eq_false_iff.mpr hkey)
  split
  · split
    · rw [hl]
      exact isNamed_of_head (c := 'A') String.toList_append (by decide) (by decide)
    · rfl
  · rfl

theorem names_rewrite (owned : List String) (w : Bool) (hpeer : sec.isPeer = true) :
    (sec.rewrite inp owned w).names key = sec.names key := by
  have hbody : ∀ (body : List String) (above : Option String),
      (rewritePeer inp.peerUpdates above body).any (isNamed key) = body.any (isNamed key) := by
    intro body
    induction body with
    | nil => exact fun _ => rfl
    | cons l body ih =>
      intro above
      rw [rewritePeer, List.any_cons, List.any_cons, ih, isNamed_peerLine]
  have hrewritten : (sec.rewrite inp owned w).body = rewritePeer inp.peerUpdates none sec.body :=
    if_pos hpeer
  rw [Section.names, hrewritten, hbody, Section.names]

theorem hasPeer_scanned (owned : List String) :
    hasPeer key (scanned inp owned lines) = hasPeer key lines := by
  have hsecs : ∀ (secs : List Section) (w : Bool),
    (rewriteSections inp owned w secs).any (fun sec => sec.isPeer && sec.names key) =
      secs.any fun sec => sec.isPeer && sec.names key := by
    intro secs
    induction secs with
    | nil => exact fun _ => rfl
    | cons sec secs ih =>
      intro w
      have hsame : (sec.rewrite inp owned w).isPeer = sec.isPeer := rfl
      rw [rewriteSections, List.any_cons, List.any_cons, ih, hsame]
      cases hpeer : sec.isPeer with
      | false => rfl
      | true => rw [names_rewrite owned w hpeer]
  rw [hasPeer, sections_scanned, hsecs, hasPeer]

theorem isNamed_injected (h : l ∈ injectedLines inp lines) : isNamed key l = false := by
  have hmarker : isNamed key (masqMarkerLine inp.masqueradeIfaces) = false :=
    isNamed_of_head (c := '#') String.toList_append (by decide) (by decide)
  have hhook : ∀ isUp, isNamed key (injectedHook inp isUp) = false :=
    fun isUp => isNamed_of_isHook (isHook_injectedHook inp isUp)
  rcases List.mem_append.mp h with h | h
  · split at h
    · rcases List.mem_cons.mp h with rfl | h
      · exact hmarker
      · rw [List.mem_singleton.mp h]
        exact hhook true
    · cases h
  · split at h
    · rw [List.mem_singleton.mp h]
      exact hhook false
    · cases h

theorem hasPeer_rewriteHubConf (inp : HubInput) (lines : List String) :
    hasPeer key (rewriteHubConf inp lines) = hasPeer key lines := by
  cases hinj : injects inp lines with
  | false => rw [rewriteHubConf_of_not hinj, hasPeer_scanned]
  | true =>
    obtain ⟨pre, sec, sec', post, hbefore, hafter, hheader, -, a, b, hbody, hbody'⟩ :=
      exists_injected hinj
    have hpeer : sec'.isPeer = sec.isPeer := by rw [Section.isPeer, Section.isPeer, hheader]
    have hnew : (injectedLines inp lines).any (isNamed key) = false :=
      List.any_eq_false.mpr fun l hl => by simp [isNamed_injected hl]
    have hnames : sec'.names key = sec.names key := by
      rw [Section.names, hbody', List.any_append, List.any_append, hnew, Bool.or_false,
        Section.names, hbody, List.any_append]
    calc hasPeer key (rewriteHubConf inp lines) =
      hasPeer key (scanned inp (inp.ownedMasq lines) lines) := by
          rw [hasPeer, hasPeer, hafter, hbefore]
          simp [hpeer, hnames]
      _ = hasPeer key lines := hasPeer_scanned _

/-! The conf without the peer. -/

theorem isCode_of_isNamed (h : isNamed key l = true) : isCode l = true := by
  obtain ⟨hstart, -⟩ := Bool.and_eq_true_iff.mp h
  obtain ⟨t, ht⟩ := List.isPrefixOf_iff_prefix.mp hstart
  refine isCode_of_head (c := 'P') ?_ (by decide)
  rw [← ht]
  rfl

theorem names_strip (sec : Section) : sec.strip.names key = sec.names key := by
  rw [Section.names, Section.names, Section.strip, List.any_filter]
  refine congrArg sec.body.any (funext fun l => ?_)
  cases hl : isNamed key l with
  | false => exact Bool.and_false _
  | true => rw [isCode_of_isNamed hl, Bool.and_true]

theorem hasPeer_removePeerFromConf (lines : List String) (key : String) :
    hasPeer key (removePeerFromConf lines key) = false := by
  have hkept : ∀ sec : Section, sec.isPeer = false → (!(sec.isPeer && sec.names key)) = true :=
    fun sec hsec => by simp [hsec]
  have hsecs : (sections (removePeerFromConf lines key)).map Section.strip =
      ((sections lines).filter fun sec => !(sec.isPeer && sec.names key)).map Section.strip := by
    rw [← sections_filter_isCode, filter_removePeerFromConf, ← List.filter_flatMap,
      sections_filter_isCode, sections_filter hkept]
  refine List.any_eq_false.mpr fun sec hsec => ?_
  have hstrip : sec.strip ∈ ((sections lines).filter fun sec => !(sec.isPeer && sec.names key)).map
      Section.strip :=
    hsecs ▸ List.mem_map_of_mem hsec
  obtain ⟨old, hold, hsame⟩ := List.mem_map.mp hstrip
  have hpeer : old.strip.isPeer = sec.strip.isPeer := congrArg Section.isPeer hsame
  have hpeer : old.isPeer = sec.isPeer := hpeer
  have hnames : old.names key = sec.names key := by rw [← names_strip old, hsame, names_strip]
  have hgone := (List.mem_filter.mp hold).2
  rw [hpeer, hnames] at hgone
  intro hsec
  rw [hsec] at hgone
  cases hgone

/-! The sync after the removal. -/

theorem conf_hubSync (s : Stores) :
    (hubSync ifaceName f nics s).conf.any (hasPeer key) = s.conf.any (hasPeer key) := by
  unfold hubSync
  split
  · rfl
  next lines hconf =>
  split
  · rfl
  · rw [hconf]
    exact hasPeer_rewriteHubConf _ lines

theorem links_hubSync (s : Stores) : (hubSync ifaceName f nics s).links = s.links := by
  unfold hubSync
  split
  · rfl
  · split <;> rfl

/-- Without an entry a peer is set again only if it is on the interface. -/
theorem live_of_hubUpdates {reads : SyncReads} {peerMap : Table String (List String)}
    {ips : List String}
    (hlinks : reads.links.get? (linkId ifaceName key) = none)
    (hget : (hubUpdates ifaceName reads peerMap).get? key = some ips) :
    ∃ live, reads.live = some live ∧ (live.get? key).isSome = true := by
  have hbuilt : (buildPeerUpdates peerMap reads.links ifaceName).get? key = none := by
    rw [buildPeerUpdates, Table.get?_filterMap, hlinks]
    cases peerMap.get? key <;> rfl
  unfold hubUpdates at hget
  dsimp only at hget
  split at hget
  · rw [hbuilt] at hget
    cases hget
  next live hlive =>
  refine ⟨live, hlive, ?_⟩
  by_contra hnot
  have hnone : live.get? key = none := by simpa using hnot
  have hkeep :
      (peerMap.entries.foldl (drift live) (buildPeerUpdates peerMap reads.links ifaceName)).get?
        key = none := by
    refine List.foldlRecOn (motive := fun u : Table String (List String) => u.get? key = none)
      peerMap.entries _ hbuilt
      fun u hu p hp => ?_
    unfold drift
    split
    · exact hu
    split
    · exact hu
    next liveIPs hp =>
    split
    · have hne : key ≠ p.1 := by
        rintro rfl
        rw [hnone] at hp
        cases hp
      rw [Table.get?_set, if_neg hne]
      exact hu
    · exact hu
  rw [hkeep] at hget
  cases hget

theorem live_hubSync (h : s.links.get? (linkId ifaceName key) = none) :
    ((hubSync ifaceName f nics s).live.get? key).isSome = (s.live.get? key).isSome := by
  unfold hubSync
  split
  · rfl
  next lines _ =>
  split
  · rfl
  dsimp only
  generalize hreads :
    (⟨linkMetas s.links, if f.dump then none else some s.live, nics⟩ : SyncReads) = reads
  have hlinks : reads.links.get? (linkId ifaceName key) = none := by
    rw [← hreads, linkMetas, Table.get?_filterMap, h]
    rfl
  have hlive : ∀ ips, (hubUpdates ifaceName reads (parsePeersFromConf lines)).get? key = some ips →
      (s.live.get? key).isSome = true := by
    intro ips hips
    obtain ⟨live, hread, hsome⟩ := live_of_hubUpdates hlinks hips
    rw [← hreads] at hread
    dsimp only at hread
    split at hread
    · cases hread
    · cases hread
      exact hsome
  refine List.foldlRecOn (motive := fun live : Table String (List String) =>
    (live.get? key).isSome = (s.live.get? key).isSome)
    _ _ rfl fun live hsame u hu => ?_
  unfold setPeer
  split
  · exact hsame
  rw [Allocation.get?_addPeer]
  split
  · next hkey =>
    rw [hlive u.2 (hkey ▸ Table.get?_of_mem hu)]
    rfl
  · rw [Option.isSome_map, hsame]

/-! One call. -/

theorem linkId_of_splitId {name : String} (h : splitId id = some (name, key)) :
    ':' ∈ id.toList ∧ id = linkId name key := by
  unfold splitId at h
  dsimp only at h
  split at h
  · next hne =>
    cases h
    have hparts := List.takeWhile_append_dropWhile (p := fun c => decide (c ≠ ':')) (l := id.toList)
    cases hdrop : id.toList.dropWhile fun c => decide (c ≠ ':') with
    | nil => exact absurd (by rw [hdrop]; rfl) hne.2
    | cons c rest =>
      have hc : c = ':' := by
        have hhead := List.head?_dropWhile_not (p := fun c => decide (c ≠ ':')) (l := id.toList)
        rw [hdrop] at hhead
        simpa using hhead
      subst hc
      rw [hdrop] at hparts
      refine ⟨hparts ▸ List.mem_append_right _ List.mem_cons_self, String.toList_injective ?_⟩
      rw [linkId, String.toList_append, String.toList_append, String.toList_ofList, List.tail_cons,
        String.toList_ofList,
        String.toList_ofList, List.append_assoc]
      exact hparts.symm
  · cases h

/-- The id is well-formed, and the peer with its key is on the interface. -/
def Found (ifaceName id : String) (s : Stores) : Prop :=
  ∃ link, resolveLink ifaceName none id s = .ok link

theorem found_iff : Found ifaceName id s ↔
    (∃ key, splitId id = some (ifaceName, key)) ∧
      (s.live.get? (Revocation.publicKeyOf id)).isSome = true := by
  cases hsplit : splitId id with
  | none =>
    constructor
    · rintro ⟨link, hlink⟩
      rw [resolveLink, hsplit] at hlink
      split at hlink <;> cases hlink
    · rintro ⟨⟨key, hkey⟩, -⟩
      cases hkey
  | some p =>
    obtain ⟨name, key⟩ := p
    obtain ⟨hcolon, hid⟩ := linkId_of_splitId hsplit
    have hkey : Revocation.publicKeyOf id = key := by rw [Revocation.publicKeyOf, hsplit]; rfl
    rw [Found, resolveLink, if_neg (not_not.mpr hcolon), hsplit, hkey]
    dsimp only
    by_cases hname : name = ifaceName
    · subst hname
      have hfind := find_statusLinks name key s.links s.live
      rw [← hid] at hfind
      rw [if_neg (not_not.mpr rfl), hfind]
      cases s.live.get? key with
      | none =>
        constructor
        · rintro ⟨_, h⟩
          cases h
        · rintro ⟨-, h⟩
          cases h
      | some ips => exact ⟨fun _ => ⟨⟨key, rfl⟩, rfl⟩, fun _ => ⟨_, rfl⟩⟩
    · rw [if_pos hname]
      constructor
      · rintro ⟨_, h⟩
        cases h
      · rintro ⟨⟨_, h⟩, -⟩
        exact absurd (congrArg Prod.fst (Option.some.inj h)) hname

theorem id_of_found (h : Found ifaceName id s) :
    id = linkId ifaceName (Revocation.publicKeyOf id) := by
  obtain ⟨⟨key, hsplit⟩, -⟩ := found_iff.mp h
  rw [Revocation.publicKeyOf, hsplit]
  exact (linkId_of_splitId hsplit).2

/-- A failed status is a rejection; without it the call is as without failures. -/
theorem resolveLink_status {status : Option String}
    (h : resolveLink ifaceName status id s = .ok link) :
    status = none := by
  cases status with
  | none => rfl
  | some message =>
    unfold resolveLink at h
    split at h
    · cases h
    · split at h <;> cases h

theorem succeeds_eq_ok {message : Option String} {u : Unit} :
    succeeds message = .ok u ↔ message = none := by
  cases message with
  | none => exact ⟨fun _ => rfl, fun _ => rfl⟩
  | some _ => exact ⟨nofun, nofun⟩

/-- The conf after a call that goes on to the interface. -/
def Failures.confAfter (f : Failures) (key : String) (conf : Option (List String)) :
    Option (List String) :=
  if f.confWrite.isSome then conf else conf.map (removePeerFromConf · key)

theorem rewriteConf_eq_ok {conf left : Option (List String)} :
    rewriteConf ifaceName key f conf = .ok left ↔
    (f.confRead.isSome || conf.isSome && f.confWrite.any fun e => e.errno matches .other) = false ∧
    f.confAfter key conf = left := by
  unfold rewriteConf Failures.confAfter
  dsimp only
  cases f.confRead with
  | some _ => exact ⟨nofun, fun h => nomatch h.1⟩
  | none =>
    cases conf with
    | none => cases f.confWrite <;> simp
    | some lines =>
      cases f.confWrite with
      | none => simp
      | some e =>
        obtain ⟨errno, message⟩ := e
        cases errno <;> simp

theorem cutConf_eq_ok {conf : Option (List String)} (hfound : Found ifaceName id s) :
    cutConf ifaceName id f s = .ok conf ↔ f.early s = false ∧
    f.confAfter (Revocation.publicKeyOf id) s.conf = conf := by
  simp only [cutConf, Checked.bind_eq_ok, succeeds_eq_ok, rewriteConf_eq_ok, exists_const,
    Failures.early, Bool.or_assoc]
  simp only [Bool.or_eq_false_iff, Option.isSome_eq_false_iff, Option.isNone_iff_eq_none, and_assoc]
  constructor
  · rintro ⟨link, hlink, h⟩
    exact ⟨resolveLink_status hlink, h⟩
  · rintro ⟨hstatus, h⟩
    obtain ⟨link, hlink⟩ := hfound
    exact ⟨link, hstatus ▸ hlink, h⟩

/-- What is left when a call has gone on to the interface. -/
def unplugged (id : String) (f : Failures) (s : Stores) : Stores where
  conf := f.confAfter (Revocation.publicKeyOf id) s.conf
  live := if f.liveRemoval then s.live else s.live.erase (Revocation.publicKeyOf id)
  links := s.links

/-- A call that is rejected early has changed nothing. -/
theorem deletePeer_early (hfound : Found ifaceName id s) (h : f.early s = true) :
    ∃ message, deletePeer ifaceName id f nics s = (.rejected message, s) := by
  unfold deletePeer
  cases hcut : cutConf ifaceName id f s with
  | error message => exact ⟨message, rfl⟩
  | ok conf =>
    rw [((cutConf_eq_ok hfound).mp hcut).1] at h
    cases h

theorem deletePeer_late (hfound : Found ifaceName id s) (h : f.early s = false) :
    deletePeer ifaceName id f nics s =
    match f.metadata with
    | some message => (.rejected message, unplugged id f s)
    | none =>
      (.deleted, hubSync ifaceName f nics { unplugged id f s with links := s.links.erase id }) := by
  rw [deletePeer, (cutConf_eq_ok hfound).mpr ⟨h, rfl⟩]
  rfl

theorem deletePeer_unfound (h : ¬ Found ifaceName id s) :
    (deletePeer ifaceName id .none nics s).1 ≠ .deleted := by
  unfold deletePeer
  cases hcut : cutConf ifaceName id .none s with
  | error message => exact nofun
  | ok conf =>
    obtain ⟨link, hlink, -⟩ := Checked.bind_eq_ok.mp hcut
    exact absurd ⟨link, hlink⟩ h

theorem gone_hubSync (hid : id = linkId ifaceName (Revocation.publicKeyOf id))
    (hnone : s.links.get? id = none) :
    Gone id (hubSync ifaceName f nics s) ↔
      s.conf.any (hasPeer (Revocation.publicKeyOf id)) = false ∧
      s.live.get? (Revocation.publicKeyOf id) = none := by
  have hlive : ((hubSync ifaceName f nics s).live.get? (Revocation.publicKeyOf id)).isSome =
      (s.live.get? (Revocation.publicKeyOf id)).isSome := live_hubSync (hid ▸ hnone)
  constructor
  · intro h
    refine ⟨(conf_hubSync s).symm.trans h.conf, ?_⟩
    rw [h.live] at hlive
    simpa using hlive.symm
  · rintro ⟨hconf, hgone⟩
    refine ⟨(conf_hubSync s).trans hconf, ?_, by rw [links_hubSync, hnone]⟩
    rw [hgone] at hlive
    simpa using hlive

theorem any_confAfter (f : Failures) (key : String) (conf : Option (List String)) :
    (f.confAfter key conf).any (hasPeer key) = (f.confWrite.isSome && conf.any (hasPeer key)) := by
  unfold Failures.confAfter
  split
  · next hwrite => rw [hwrite, Bool.true_and]
  · next hwrite =>
    rw [Bool.eq_false_iff.mpr hwrite, Bool.false_and]
    cases conf with
    | none => rfl
    | some lines => exact hasPeer_removePeerFromConf lines key

theorem keepsPeer_eq (h : f.early s = false) (key : String) :
    (f.confAfter key s.conf).any (hasPeer key) = f.keepsPeer key s := by
  have hwrite := (Bool.or_eq_false_iff.mp h).2
  rw [any_confAfter, Failures.keepsPeer]
  cases hconf : s.conf with
  | none => rw [Option.any_none, Bool.and_false, Bool.and_false]
  | some lines =>
    rw [hconf, Option.isSome_some, Bool.true_and] at hwrite
    cases hfails : f.confWrite with
    | none => rfl
    | some e =>
      obtain ⟨errno, message⟩ := e
      cases errno with
      | enoent => rfl
      | other =>
        rw [hfails] at hwrite
        cases hwrite

/-- A call that fails nowhere deletes a peer that is on the interface. -/
theorem deletePeer_none (hfound : Found ifaceName id s) :
    (deletePeer ifaceName id .none nics s).1 = .deleted ∧ Gone id
    (deletePeer ifaceName id .none nics s).2 := by
  have hid := id_of_found hfound
  have hearly : Failures.none.early s = false := by simp [Failures.none, Failures.early]
  have hcall : deletePeer ifaceName id .none nics s =
      (.deleted,
        hubSync ifaceName .none nics { unplugged id .none s with links := s.links.erase id }) :=
    deletePeer_late hfound hearly
  rw [hcall]
  refine ⟨rfl, (gone_hubSync hid ?_).mpr ⟨?_, ?_⟩⟩
  · rw [Table.get?_erase, if_pos rfl]
  · exact any_confAfter Failures.none _ s.conf
  · exact (Table.get?_erase ..).trans (if_pos rfl)

/-- A deletion gets to its end exactly if it is rejected before anything changes, or neither the
live removal nor the write of the metadata fails and the conf does not keep the peer, or both fail.
-/
theorem completes_iff (hfound : Found ifaceName id s) : Completes ifaceName id f nics s ↔
    f.early s = true ∨ (f.liveRemoval = true ∧ f.metadata.isSome = true) ∨
      (f.liveRemoval = false ∧ f.metadata.isSome = false ∧
        f.keepsPeer (Revocation.publicKeyOf id) s = false) := by
  have hid := id_of_found hfound
  obtain ⟨hsplit, hlive⟩ := found_iff.mp hfound
  unfold Completes
  cases hearly : f.early s with
  | true =>
    obtain ⟨message, hcall⟩ : ∃ message,
        deletePeer ifaceName id f nics s = (.rejected message, s) :=
      deletePeer_early hfound hearly
    rw [hcall]
    exact ⟨fun _ => .inl rfl, fun _ _ => deletePeer_none hfound⟩
  | false =>
  rw [deletePeer_late hfound hearly]
  cases hmeta : f.metadata with
  | some message =>
    dsimp only
    cases hremoval : f.liveRemoval with
    | true =>
      have hagain : Found ifaceName id (unplugged id f s) :=
        found_iff.mpr ⟨hsplit, by rwa [unplugged, hremoval, if_pos rfl]⟩
      exact ⟨fun _ => .inr (.inl ⟨rfl, rfl⟩), fun _ _ => deletePeer_none hagain⟩
    | false =>
      -- the interface has lost the peer, and with it the link a second call looks for
      have hlost : ¬ Found ifaceName id (unplugged id f s) := by
        intro hagain
        have hsome := (found_iff.mp hagain).2
        rw [unplugged, hremoval, if_neg Bool.false_ne_true, Table.get?_erase, if_pos rfl] at hsome
        cases hsome
      constructor
      · intro h
        exact absurd (h []).1 (deletePeer_unfound hlost)
      · rintro (h | ⟨h, -⟩ | ⟨-, h, -⟩)
        · cases h
        · cases h
        · cases h
  | none =>
    dsimp only
    have hnone : (s.links.erase id).get? id = none := by rw [Table.get?_erase, if_pos rfl]
    rw [gone_hubSync hid hnone]
    cases hremoval : f.liveRemoval with
    | true =>
      constructor
      · rintro ⟨-, hgone⟩
        rw [unplugged, hremoval, if_pos rfl] at hgone
        rw [hgone] at hlive
        cases hlive
      · rintro (h | ⟨-, h⟩ | ⟨h, -⟩)
        · cases h
        · cases h
        · cases h
    | false =>
      have hgone : (unplugged id f s).live.get? (Revocation.publicKeyOf id) = none := by
        rw [unplugged, hremoval, if_neg Bool.false_ne_true, Table.get?_erase, if_pos rfl]
      have hkept : (unplugged id f s).conf.any (hasPeer (Revocation.publicKeyOf id)) =
          f.keepsPeer (Revocation.publicKeyOf id) s :=
        keepsPeer_eq hearly _
      constructor
      · rintro ⟨hconf, -⟩
        exact .inr (.inr ⟨rfl, rfl, hkept.symm.trans hconf⟩)
      · rintro (h | ⟨h, -⟩ | ⟨-, -, h⟩)
        · cases h
        · cases h
        · exact ⟨hkept.trans h, hgone⟩

/-- One peer, with a name and an imported network, and no failure so far. -/
def sampleStores : Stores where
  conf :=
    some ["[Interface]", "Address = 10.10.0.1/24", "[Peer]", "PublicKey = QUJD=",
      "AllowedIPs = 10.10.0.2/32", ""]
  live := Table.empty.set "QUJD=" ["10.10.0.2/32"]
  links :=
    Table.empty.set "wg0:QUJD=" ⟨⟨some "site", none, some ["192.168.7.0/24"]⟩, [], none, [], false,
      none⟩

theorem found_sample : Found "wg0" "wg0:QUJD=" sampleStores :=
  found_iff.mpr ⟨⟨"QUJD=", by decide +kernel⟩, by decide +kernel⟩

theorem sample_completes :
    Completes "wg0" "wg0:QUJD=" { Failures.none with backup := some "ENOSPC" } [] sampleStores :=
  (completes_iff found_sample).mpr (.inl (by decide))

def metadataFails : Failures :=
  { Failures.none with metadata := some "EROFS: read-only file system" }

def removalFails : Failures := { Failures.none with liveRemoval := true }

/-- After a failed write of the metadata a second call does not find the link, and after a failed
live removal the first answers that the peer is deleted. -/
theorem stuck_removals : ¬ Completes "wg0" "wg0:QUJD=" metadataFails [] sampleStores ∧
    ¬ Completes "wg0" "wg0:QUJD=" removalFails [] sampleStores := by
  constructor
  · intro h
    have hagain :
        (deletePeer "wg0" "wg0:QUJD=" .none []
          (deletePeer "wg0" "wg0:QUJD=" metadataFails [] sampleStores).2).1 = .deleted :=
      (h []).1
    exact absurd hagain (by decide +kernel)
  · intro h
    have hlive : (deletePeer "wg0" "wg0:QUJD=" removalFails [] sampleStores).2.live.get? "QUJD=" =
        none := Gone.live h
    exact absurd hlive (by decide +kernel)

end FloppyGuard.WireGuard.FailedRemoval
