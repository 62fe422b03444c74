import FloppyGuard.Lib.Run
import FloppyGuard.WireGuard.ClientConfig
import FloppyGuard.WireGuard.PeerRewrite
import Mathlib.Logic.Function.Basic

/-! `generatePeerConfig` on one interface: the calls, the runs they start or join, and the steps of
a run between two awaits. A lock holder keeps the conf from the others; everything else is read and
written between any two steps. -/
namespace FloppyGuard.WireGuard.KeyRotation

/-- What a run has found out when it makes its key. -/
structure Draft where
  store : Table String LinkEntry
  status : List LinkRecord
  link : LinkRecord
  privateKey : String

/-- Where a run of `_generatePeerConfigUncached` stands: behind the await that ended last. -/
inductive Phase
  | asked
  | read (store : Table String LinkEntry)
  | found (store : Table String LinkEntry) (status : List LinkRecord) (link : LinkRecord)
  | keyed (d : Draft)
  /-- the conf has the new key -/
  | written (d : Draft)
  /-- `wg set … remove` is over -/
  | removed (d : Draft)
  /-- `_rotatePeerPublicKey` has returned true -/
  | rotated (d : Draft)
  | moved (d : Draft)
  | ready (d : Draft) (rotated : Bool) (store : Table String LinkEntry)
  | done (result : PeerConfig)
  | failed

structure Promise where
  id : String
  phase : Phase

/-- A call waits for the run of its own or of an earlier call; both go by the number of that call.
-/
inductive Call
  | waiting (owner : ℕ)
  | ended (result : Option PeerConfig)
deriving DecidableEq

structure State where
  conf : Option (List String)
  live : Table String (List String)
  links : Table String LinkEntry
  cache : Table String PeerConfig
  inFlight : Table String ℕ
  holder : Option ℕ
  runs : ℕ → Option Promise
  calls : ℕ → Option Call
  /-- every public key made so far -/
  keys : List String
  /-- every key swap the conf has seen -/
  rotations : List (String × String)

inductive Act
  | ask (c : ℕ) (id : String)
  | readStore (i : ℕ)
  | readDump (i : ℕ)
  | genkey (i : ℕ) (privateKey : String)
  | swap (i : ℕ) (readable : Bool)
  | wgRemove (i : ℕ) (ok : Bool)
  | wgAdd (i : ℕ) (ok : Bool)
  | moveEntry (i : ℕ)
  | reread (i : ℕ)
  | finish (i : ℕ)
  | fail (i : ℕ)
  | settle (c : ℕ)
  | expire (id : String)

section Draft

variable (w : HubWorld) (d : Draft)

def Draft.newPubKey : String := w.derivePublicKey d.privateKey

def Draft.newLinkId : String := linkId w.ifaceName (d.newPubKey w)

/-- The config a run hands out. -/
def Draft.config (id : String) (rotated : Bool) (store : Table String LinkEntry) : PeerConfig :=
  let effectiveLinkId := if rotated then d.newLinkId w else id
  let linkMeta := ((store.get? effectiveLinkId).or (store.get? id)).getD .blank
  buildClientConfig w (d.newPubKey w)
    { displayName := if d.link.name ≠ "" then d.link.name else d.link.id
      privateKey := d.privateKey
      publicKey := some (d.newPubKey w)
      tunnelAddress := d.link.tunnelAddresses.head?
      linkDns := linkMeta.dns
      fullTunnel := linkMeta.fullTunnel
      platform := linkMeta.platform
      importedNets := d.link.importedNetworks
      links := d.status
      excludeLinkId := id }

end Draft

/-- The entry of the old id, if there is one, goes to the new id. -/
def moveLink (links : Table String LinkEntry) (id newId : String) : Table String LinkEntry :=
  match links.get? id with
  | some entry => (links.set newId entry).erase id
  | none => links

/-- `wg set … peer <key> allowed-ips …`: the networks are taken from the other peers. -/
def addPeer (live : Table String (List String)) (key : String) (ips : List String) :
    Table String (List String) :=
  (live.filterMap fun _ nets => some (nets.filter (· ∉ ips))).set key ips

/-- Whether a run may still fail: not while it has the lock, and not after its end. -/
def Phase.mayFail : Phase → Bool
  | .written _ | .removed _ | .done _ | .failed => false
  | _ => true

namespace State

variable (s : State)

def enter (i : ℕ) (id : String) (phase : Phase) : State :=
  { s with runs := Function.update s.runs i (some ⟨id, phase⟩) }

def answer (c : ℕ) (call : Call) : State :=
  { s with calls := Function.update s.calls c (some call) }

/-- A call that finds its id neither cached nor in flight starts a run. -/
def start (c : ℕ) (id : String) : State :=
  { s with
    runs := Function.update s.runs c (some ⟨id, .asked⟩)
    calls := Function.update s.calls c (some (.waiting c))
    inFlight := s.inFlight.set id c }

/-- `_rotatePeerPublicKey` up to the write of the conf. -/
def swapped (w : HubWorld) (i : ℕ) (id : String) (d : Draft) (conf : List String) : State :=
  { s.enter i id (.written d) with
    conf := some (rewriteRotatedPeer conf d.link.peerPublicKey (d.newPubKey w)).2
    holder := some i
    rotations := s.rotations ++ [(d.link.peerPublicKey, d.newPubKey w)] }

/-- Both ids are cached before the promise is fulfilled. -/
def finished (w : HubWorld) (i : ℕ) (id : String) (d : Draft) (rotated : Bool)
    (store : Table String LinkEntry) : State :=
  let result := d.config w id rotated store
  { s.enter i id (.done result) with
    cache := if rotated then (s.cache.set id result).set (d.newLinkId w) result
      else s.cache.set id result }

/-- The owner of a run takes its promise out of the map. -/
def settled (c : ℕ) (owner : ℕ) (id : String) (result : Option PeerConfig) : State :=
  { s.answer c (.ended result) with
    inFlight := if c = owner then s.inFlight.erase id else s.inFlight }

end State

/-- What a call gets from a run that has ended. -/
def Phase.result? : Phase → Option (Option PeerConfig)
  | .done r => some (some r)
  | .failed => some none
  | _ => none

/-- The link a run reads from the status. -/
def foundLink (w : HubWorld) (s : State) (id : String) (store : Table String LinkEntry) :
    Option LinkRecord :=
  (statusLinks w.ifaceName store s.live).find? (·.id = id)

def step (w : HubWorld) (s : State) : Act → Option State
  | .ask c id =>
    if (s.calls c).isSome then none
    else match s.cache.get? id, s.inFlight.get? id with
      | some r, _ => some (s.answer c (.ended (some r)))
      | none, some owner => some (s.answer c (.waiting owner))
      | none, none => some (s.start c id)
  | .readStore i =>
    match s.runs i with
    | some ⟨id, .asked⟩ => some (s.enter i id (.read s.links))
    | _ => none
  | .readDump i =>
    match s.runs i with
    | some ⟨id, .read store⟩ =>
      match foundLink w s id store with
      | some link => some (s.enter i id (.found store (statusLinks w.ifaceName store s.live) link))
      | none => some (s.enter i id .failed)
    | _ => none
  | .genkey i privateKey =>
    match s.runs i with
    | some ⟨id, .found store status link⟩ =>
      if peerConfigRefusal w.ifaceName link (store.get? id) = none then
        some { s.enter i id (.keyed ⟨store, status, link, privateKey⟩) with
          keys := s.keys ++ [w.derivePublicKey privateKey] }
      else none
    | _ => none
  | .swap i readable =>
    match s.runs i with
    | some ⟨id, .keyed d⟩ =>
      let kept := s.enter i id (.ready d false d.store)
      if d.link.peerPublicKey = "" ∨ d.link.peerPublicKey = d.newPubKey w then some kept
      else if s.holder.isSome then none
      else match if readable then s.conf else none with
        | none => some kept
        | some conf =>
          if (rewriteRotatedPeer conf d.link.peerPublicKey (d.newPubKey w)).1 then
            some (s.swapped w i id d conf)
          else some kept
    | _ => none
  | .wgRemove i ok =>
    match s.runs i with
    | some ⟨id, .written d⟩ =>
      some { s.enter i id (.removed d) with
        live := if ok then s.live.erase d.link.peerPublicKey else s.live }
    | _ => none
  | .wgAdd i ok =>
    match s.runs i with
    | some ⟨id, .removed d⟩ =>
      some { s.enter i id (.rotated d) with
        live := if ok then addPeer s.live (d.newPubKey w) d.link.allowedIps else s.live
        holder := none }
    | _ => none
  | .moveEntry i =>
    match s.runs i with
    | some ⟨id, .rotated d⟩ =>
      if s.holder.isSome then none
      else some { s.enter i id (.moved d) with links := moveLink s.links id (d.newLinkId w) }
    | _ => none
  | .reread i =>
    match s.runs i with
    | some ⟨id, .moved d⟩ => some (s.enter i id (.ready d true s.links))
    | _ => none
  | .finish i =>
    match s.runs i with
    | some ⟨id, .ready d rotated store⟩ => some (s.finished w i id d rotated store)
    | _ => none
  | .fail i =>
    match s.runs i with
    | some run => if run.phase.mayFail then some (s.enter i run.id .failed) else none
    | none => none
  | .settle c =>
    match s.calls c with
    | some (.waiting owner) =>
      match s.runs owner with
      | some run =>
        match run.phase.result? with
        | some result => some (s.settled c owner run.id result)
        | none => none
      | none => none
    | _ => none
  | .expire id => some { s with cache := s.cache.erase id }

/-! What a step can do. -/

variable {w : HubWorld} {s t : State} {a : Act}

inductive Step (w : HubWorld) (s : State) : Act → State → Prop
  | cached {c id r} (hc : s.calls c = none) (hr : s.cache.get? id = some r) :
      Step w s (.ask c id) (s.answer c (.ended (some r)))
  | joined {c id owner} (hc : s.calls c = none) (hr : s.cache.get? id = none)
      (ho : s.inFlight.get? id = some owner) :
      Step w s (.ask c id) (s.answer c (.waiting owner))
  | started {c id} (hc : s.calls c = none) (hr : s.cache.get? id = none)
      (ho : s.inFlight.get? id = none) :
      Step w s (.ask c id) (s.start c id)
  | readStore {i id} (hi : s.runs i = some ⟨id, .asked⟩) : Step w s (.readStore i)
      (s.enter i id (.read s.links))
  | found {i id store link} (hi : s.runs i = some ⟨id, .read store⟩)
      (hl : foundLink w s id store = some link) :
      Step w s (.readDump i)
        (s.enter i id (.found store (statusLinks w.ifaceName store s.live) link))
  | notFound {i id store} (hi : s.runs i = some ⟨id, .read store⟩)
      (hl : foundLink w s id store = none) :
      Step w s (.readDump i) (s.enter i id .failed)
  | genkey {i id store status link privateKey} (hi : s.runs i = some ⟨id, .found store status link⟩)
      (ha : peerConfigRefusal w.ifaceName link (store.get? id) = none) :
      Step w s (.genkey i privateKey) { s.enter i id (.keyed ⟨store, status, link, privateKey⟩) with
        keys := s.keys ++ [w.derivePublicKey privateKey] }
  | swapped {i id d conf} (hi : s.runs i = some ⟨id, .keyed d⟩)
      (hkey : ¬ (d.link.peerPublicKey = "" ∨ d.link.peerPublicKey = d.newPubKey w))
        (hholder : s.holder = none)
      (hconf : s.conf = some conf)
        (hswap : (rewriteRotatedPeer conf d.link.peerPublicKey (d.newPubKey w)).1 = true) :
      Step w s (.swap i true) (s.swapped w i id d conf)
  | kept {i id d readable} (hi : s.runs i = some ⟨id, .keyed d⟩)
      (hkept : d.link.peerPublicKey = "" ∨ d.link.peerPublicKey = d.newPubKey w ∨ readable = false ∨
        ∀ conf, s.conf = some conf →
          (rewriteRotatedPeer conf d.link.peerPublicKey (d.newPubKey w)).1 = false) :
      Step w s (.swap i readable) (s.enter i id (.ready d false d.store))
  | wgRemove {i id d ok} (hi : s.runs i = some ⟨id, .written d⟩) :
      Step w s (.wgRemove i ok) { s.enter i id (.removed d) with
        live := if ok then s.live.erase d.link.peerPublicKey else s.live }
  | wgAdd {i id d ok} (hi : s.runs i = some ⟨id, .removed d⟩) :
      Step w s (.wgAdd i ok) { s.enter i id (.rotated d) with
        live := if ok then addPeer s.live (d.newPubKey w) d.link.allowedIps else s.live
        holder := none }
  | moveEntry {i id d} (hi : s.runs i = some ⟨id, .rotated d⟩) (hholder : s.holder = none) :
      Step w s (.moveEntry i)
        { s.enter i id (.moved d) with links := moveLink s.links id (d.newLinkId w) }
  | reread {i id d} (hi : s.runs i = some ⟨id, .moved d⟩) : Step w s (.reread i)
      (s.enter i id (.ready d true s.links))
  | finish {i id d rotated store} (hi : s.runs i = some ⟨id, .ready d rotated store⟩) :
      Step w s (.finish i) (s.finished w i id d rotated store)
  | fail {i id phase} (hi : s.runs i = some ⟨id, phase⟩) (hmay : phase.mayFail = true) :
      Step w s (.fail i) (s.enter i id .failed)
  | settle {c owner id phase result} (hc : s.calls c = some (.waiting owner))
      (ho : s.runs owner = some ⟨id, phase⟩) (hr : phase.result? = some result) :
      Step w s (.settle c) (s.settled c owner id result)
  | expire {id} : Step w s (.expire id) { s with cache := s.cache.erase id }

theorem step_cases (h : step w s a = some t) : Step w s a t := by
  unfold step at h
  split at h
  · next c id =>
    split at h
    · cases h
    next hc =>
    have hc : s.calls c = none := by simpa using hc
    split at h
    · next hr => exact Option.some.inj h ▸ .cached hc hr
    · next hr ho => exact Option.some.inj h ▸ .joined hc hr ho
    · next hr ho => exact Option.some.inj h ▸ .started hc hr ho
  · split at h
    · next hi => exact Option.some.inj h ▸ .readStore hi
    · cases h
  · split at h
    · next hi =>
      split at h
      · next hl => exact Option.some.inj h ▸ .found hi hl
      · next hl => exact Option.some.inj h ▸ .notFound hi hl
    · cases h
  · split at h
    · next hi =>
      split at h
      · next ha => exact Option.some.inj h ▸ .genkey hi ha
      · cases h
    · cases h
  · split at h
    · next hi =>
      dsimp only at h
      split at h
      · next hkey => exact Option.some.inj h ▸ .kept hi (hkey.imp id .inl)
      next hkey =>
      split at h
      · cases h
      next hholder =>
      have hholder : s.holder = none := by simpa using hholder
      split at h
      · next hconf =>
        refine Option.some.inj h ▸ .kept hi (.inr (.inr ?_))
        split at hconf
        · exact .inr fun conf hc => by rw [hc] at hconf; cases hconf
        · next hread => exact .inl (Bool.eq_false_iff.mpr hread)
      · next conf hconf =>
        split at hconf
        · next hread =>
          split at h
          · next hswap =>
            rw [hread]
            exact Option.some.inj h ▸ .swapped hi hkey hholder hconf hswap
          · next hswap =>
            refine Option.some.inj h ▸ .kept hi (.inr (.inr (.inr fun conf' hc => ?_)))
            obtain rfl : conf' = conf := Option.some.inj (hc.symm.trans hconf)
            exact Bool.eq_false_iff.mpr hswap
        · cases hconf
    · cases h
  · split at h
    · next hi => exact Option.some.inj h ▸ .wgRemove hi
    · cases h
  · split at h
    · next hi => exact Option.some.inj h ▸ .wgAdd hi
    · cases h
  · split at h
    · next hi =>
      split at h
      · cases h
      · next hholder => exact Option.some.inj h ▸ .moveEntry hi (by simpa using hholder)
    · cases h
  · split at h
    · next hi => exact Option.some.inj h ▸ .reread hi
    · cases h
  · split at h
    · next hi => exact Option.some.inj h ▸ .finish hi
    · cases h
  · split at h
    · next run hi =>
      split at h
      · next hmay => exact Option.some.inj h ▸ .fail hi hmay
      · cases h
    · cases h
  · split at h
    · next hc =>
      split at h
      · next run ho =>
        split at h
        · next hr => exact Option.some.inj h ▸ .settle hc ho hr
        · cases h
      · cases h
    · cases h
  · exact Option.some.inj h ▸ .expire

/-! What a step leaves alone. -/

theorem enter_runs {i j : ℕ} {id id' : String} {p q : Phase}
    (h : (s.enter i id p).runs j = some ⟨id', q⟩) :
    j = i ∧ id' = id ∧ q = p ∨ j ≠ i ∧ s.runs j = some ⟨id', q⟩ := by
  change Function.update s.runs i (some ⟨id, p⟩) j = _ at h
  by_cases hj : j = i
  · subst hj
    rw [Function.update_self] at h
    cases h
    exact .inl ⟨rfl, rfl, rfl⟩
  · rw [Function.update_of_ne hj] at h
    exact .inr ⟨hj, h⟩

/-- A promise goes on under its id; a new one is a call's. -/
theorem Step.runs {i : ℕ} {id : String} {p : Phase} (hs : Step w s a t)
    (hi : t.runs i = some ⟨id, p⟩) :
    (∃ p', s.runs i = some ⟨id, p'⟩) ∨ ∃ c, a = .ask c id := by
  have hkept : ∀ {j id' q q'}, s.runs j = some ⟨id', q⟩ → (s.enter j id' q').runs i = some ⟨id, p⟩ →
      (∃ p', s.runs i = some ⟨id, p'⟩) ∨ ∃ c, a = .ask c id := by
    intro j id' q q' hj he
    rcases enter_runs he with ⟨rfl, rfl, -⟩ | ⟨-, hi⟩
    · exact .inl ⟨q, hj⟩
    · exact .inl ⟨p, hi⟩
  cases hs with
  | cached => exact .inl ⟨p, hi⟩
  | joined => exact .inl ⟨p, hi⟩
  | started =>
    rcases enter_runs (p := .asked) hi with ⟨-, rfl, -⟩ | ⟨-, hi⟩
    · exact .inr ⟨_, rfl⟩
    · exact .inl ⟨p, hi⟩
  | readStore hj => exact hkept hj hi
  | found hj _ => exact hkept hj hi
  | notFound hj _ => exact hkept hj hi
  | genkey hj _ => exact hkept hj hi
  | swapped hj => exact hkept hj hi
  | kept hj _ => exact hkept hj hi
  | wgRemove hj => exact hkept hj hi
  | wgAdd hj => exact hkept hj hi
  | moveEntry hj _ => exact hkept hj hi
  | reread hj => exact hkept hj hi
  | finish hj => exact hkept hj hi
  | fail hj _ => exact hkept hj hi
  | settle => exact .inl ⟨p, hi⟩
  | expire => exact .inl ⟨p, hi⟩

/-- The conf changes by a rotation only. -/
theorem Step.conf (hs : Step w s a t) : t.conf = s.conf ∨
    ∃ conf old new, s.conf = some conf ∧ t.conf = some (rewriteRotatedPeer conf old new).2 := by
  cases hs with
  | swapped _ _ _ hconf _ => exact .inr ⟨_, _, _, hconf, rfl⟩
  | _ => exact .inl rfl

/-- The metadata changes by the move of an entry from the id of a promise only. -/
theorem Step.links (hs : Step w s a t) : t.links = s.links ∨
    ∃ i id p newId, s.runs i = some ⟨id, p⟩ ∧ t.links = moveLink s.links id newId := by
  cases hs with
  | moveEntry hi _ => exact .inr ⟨_, _, _, _, hi, rfl⟩
  | _ => exact .inl rfl

theorem Step.keys (hs : Step w s a t) : t.keys = s.keys ∨
    ∃ i privateKey, a = .genkey i privateKey ∧
    t.keys = s.keys ++ [w.derivePublicKey privateKey] := by
  cases hs with
  | genkey => exact .inr ⟨_, _, rfl, rfl⟩
  | _ => exact .inl rfl

end FloppyGuard.WireGuard.KeyRotation
