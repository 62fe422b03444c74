import FloppyGuard.Cidr
import Mathlib.Data.List.DropRight
import Mathlib.Logic.Function.Basic

/-! The path of a direct link (`direct_step`, `direct_health`, `direct_all_off`): the files of one
link, its interface and its routing table. -/
namespace FloppyGuard.DirectPath

/-- `DIRECT_OKS` -/
def directOks : ℕ := 3

/-- `DIRECT_FAILS` -/
def directFails : ℕ := 3

/-- `DIRECT_HS_MAX` -/
def directHsMax : ℤ := 180

inductive Path
  | hub
  | direct
deriving DecidableEq

abbrev Line := List Char

/-- The files of a link under their extensions, its interface, and the routes through it in each
routing table; `none` is a missing file. `results` are the results of the health checks, the last
one first. -/
structure State where
  key : Option Line
  /-- the link's own interface, `fgd` with its id -/
  iface : Bool
  table : Option ℕ
  hash : Option String
  routes : Option (List Cidr)
  peer : Option String
  conf : Option (List Line)
  path : Option Path
  ok : Option ℕ
  fail : Option ℕ
  linkUp : Bool
  tables : ℕ → List Cidr
  results : List Bool

/-- What the commands of the gateway answer. -/
structure Host where
  /-- `direct_ingress_ok` -/
  ingressOk : Bool
  /-- the networks of the main table that are not behind a tunnel -/
  conn : List Cidr
  /-- what `ip route replace` accepts -/
  accepts : Cidr → Bool
  genkey : Option Line
  pubkey : Bool
  wgQuickUp : Bool
  /-- `wg-quick down`, or else `ip link del` -/
  linkDel : Bool
  /-- the config is staged with the key -/
  staged : Bool
  /-- the stripped config is complete and `wg syncconf` takes it -/
  syncconf : Bool
  pingInstalled : Bool
  /-- seconds since the last handshake; negative without one -/
  age : ℤ
  pong : Bool

/-- A link of the payload behind the checks. -/
inductive Entry
  /-- rejected -/
  | keep
  /-- switched off, or without a config -/
  | off
  | on (cfg : List Line) (hash peer : String) (routes : List Cidr)

def tableOf (id : ℕ) : ℕ := 52000 + id

/-- `_direct_num` of the `.table` file -/
def State.tableNum (s : State) : ℕ := s.table.getD 0

def flush (n : ℕ) (tables : ℕ → List Cidr) : ℕ → List Cidr :=
  if n = 0 then tables else Function.update tables n []

def directRoutesOff (s : State) : State :=
  { s with tables := flush s.tableNum s.tables, path := some .hub }

/-- `_net_overlaps` -/
def netOverlaps (net : Cidr) (conn : List Cidr) : Bool := conn.any fun c => net.Overlaps c

/-- The networks of the list that stay out of the way of `conn`, and no others. -/
def fill (h : Host) (routes cur : List Cidr) : List Cidr :=
  let added := (routes.filter fun net => !netOverlaps net h.conn && h.accepts net).foldl
    (fun cur net => cur.insert net) cur
  added.filter fun net => net ∈ routes ∧ ¬netOverlaps net h.conn

/-- `none` where the script returns 1. -/
def directRoutesOn (h : Host) (s : State) : Option State :=
  if s.iface ∧ s.tableNum ≠ 0 ∧ s.linkUp then
    s.routes.map fun routes => { s with
      tables := Function.update s.tables s.tableNum (fill h routes (s.tables s.tableNum))
      path := some .direct }
  else none

/-- The routes of an interface go with it. -/
def linkLost (s : State) : State := { s with linkUp := false, tables := fun _ => [] }

def directIfaceDown (h : Host) (s : State) : State :=
  if s.iface ∧ s.linkUp ∧ h.linkDel then linkLost s else s

/-- The interface and its conf, where the files still name it. -/
def removeIface (h : Host) (s : State) : State :=
  if s.iface then { directIfaceDown h s with conf := none } else s

def directTeardown (h : Host) (forget : Bool) (s : State) : State :=
  let s :=
    { removeIface h (directRoutesOff s) with
      hash := none, routes := none, peer := none, fail := none, ok := none }
  if forget then { s with key := none, iface := false, table := none, path := none } else s

def stage (key : Line) (cfg : List Line) : List Line :=
  cfg.flatMap fun l =>
    if "PrivateKey".toList.isPrefixOf (Text.trim l) then []
    else if Text.trim l = "[Interface]".toList then [l, "PrivateKey = ".toList ++ key]
    else [l]

/-- `$1` of awk -/
def firstField (l : Line) : Line := (l.dropWhile Text.isSpace).takeWhile fun c => !Text.isSpace c

/-- The lines before the peer. -/
def interfacePart (conf : List Line) : List Line :=
  (conf.takeWhile fun l => firstField l ≠ "[Peer]".toList).rdropWhile (· = [])

/-- The peer settings of the running interface: the path and the health stay. -/
def updateInPlace (h : Host) (staged : List Line) (hash : String) (s : State) : State :=
  let s := { s with conf := some staged, hash := some hash }
  if s.path = some .direct then (directRoutesOn h s).getD s else s

def restartIface (h : Host) (staged : List Line) (hash : String) (s : State) : State :=
  let s := { directIfaceDown h (directRoutesOff s) with hash := none, conf := some staged }
  if h.wgQuickUp then { s with linkUp := true, hash := some hash, ok := some 0, fail := some 0 }
    else s

def directUp (h : Host) (cfg : List Line) (hash : String) (s : State) : State :=
  if !h.ingressOk then directTeardown h false s
  else
    match if h.staged then s.key else none with
    | none => s
    | some key =>
      let staged := stage key cfg
      if s.linkUp ∧ s.conf.any (fun conf => interfacePart conf = interfacePart staged) ∧
        h.syncconf then
        updateInPlace h staged hash s
      else restartIface h staged hash s

/-- One link of the payload. -/
def directEntry (id : ℕ) (h : Host) (s : State) (e : Entry) : State :=
  let s := { s with iface := true, table := some (tableOf id), key := s.key <|> h.genkey }
  if s.key.isNone ∨ !h.pubkey then s
  else
    match e with
    | .keep => s
    | .off => if s.hash.isSome ∨ s.linkUp then directTeardown h false s else s
    | .on cfg hash peer routes =>
      let s := { s with routes := some routes, peer := some peer }
      if s.hash = some hash ∧ s.linkUp then s else directUp h cfg hash s

/-- The entries of the payload for this link, each with what the commands answer while it is
applied. -/
def directStep (id : ℕ) (h : Host) (entries : List (Host × Entry)) (s : State) : State :=
  if entries = [] then
    -- the hub no longer sends the link
    if s.iface then directTeardown h true s else s
  else entries.foldl (fun s e => directEntry id e.1 s e.2) s

/-- The counters of failed and of successful checks after one more. -/
def countChecks (ok : Bool) (fails oks : ℕ) : ℕ × ℕ :=
  if ok then (0, if oks < 1000 then oks + 1 else oks)
    else (if fails < 1000 then fails + 1 else fails, 0)

/-- The decision of a check. -/
def switchPath (h : Host) (ok : Bool) (fails oks : ℕ) (s : State) : State :=
  if s.path = some .direct then
    if directFails ≤ fails then directRoutesOff s else (directRoutesOn h s).getD s
  else if ok ∧ directOks ≤ oks then (directRoutesOn h s).getD s
  else s

def directHealth (h : Host) (s : State) : State :=
  if s.hash.isNone ∨ !s.iface then s
  else if s.linkUp ∧ !h.ingressOk then
    { directTeardown h false s with results := false :: s.results }
  else
    let age := if s.linkUp then h.age else -1
    -- down although it should run
    let s := { s with linkUp := s.linkUp || (s.conf.isSome && h.ingressOk && h.wgQuickUp) }
    let ok := s.linkUp && h.pingInstalled && decide (0 ≤ age ∧ age < directHsMax) &&
      s.peer.any (· ≠ "") && h.pong
    let (fails, oks) := countChecks ok (s.fail.getD 0) (s.ok.getD 0)
    { switchPath h ok fails oks s with
      fail := some fails, ok := some oks, results := ok :: s.results }

/-- The agent ends. -/
def directAllOff (s : State) : State :=
  if s.table.isSome then { s with tables := flush s.tableNum s.tables, path := some .hub } else s

/-- The agent begins: links that are down are brought up again. -/
def restore (h : Host) (s : State) : State :=
  if s.hash.isNone ∨ !s.iface ∨ s.linkUp then s
  else
    let s := directRoutesOff s
    if s.conf.isNone then { s with hash := none }
    else if h.ingressOk ∧ h.wgQuickUp then { s with linkUp := true }
    else s

inductive Act
  | step (h : Host) (entries : List (Host × Entry))
  | health (h : Host)
  /-- the agent is stopped, or ends by an error -/
  | stop
  /-- the agent begins: after a stop, after the `exec` of an update, or after it was killed -/
  | start (h : Host)
  /-- the interface is taken down, or brought up, by somebody else -/
  | linkDown
  | linkUp
  /-- the files under `/run` are gone, like the state of the kernel -/
  | reboot

def next (id : ℕ) (s : State) : Act → State
  | .step h entries => directStep id h entries s
  | .health h => directHealth h s
  | .stop => directAllOff s
  | .start h => restore h s
  | .linkDown => linkLost s
  | .linkUp => { s with linkUp := true }
  | .reboot => { linkLost s with path := none, ok := none, fail := none }

/-- The link is not known yet. -/
def State.initial : State where
  key := none
  iface := false
  table := none
  hash := none
  routes := none
  peer := none
  conf := none
  path := none
  ok := none
  fail := none
  linkUp := false
  tables := fun _ => []
  results := []

variable {id n : ℕ} {s t : State} {h : Host} {results : List Bool} {b : Bool}

/-- How many results at the end of the history are `b`. -/
def streak (b : Bool) (results : List Bool) : ℕ := (results.takeWhile (· = b)).length

theorem streak_cons_self : streak b (b :: results) = streak b results + 1 := by
  simp [streak]

theorem streak_cons_not : streak b ((!b) :: results) = 0 := by
  cases b <;> simp [streak]

/-! Routes only while the path is direct. -/

/-- The files know the table that has routes, and the path is direct. -/
structure Routed (id : ℕ) (s : State) : Prop where
  file : ∀ n, s.table = some n → n = tableOf id
  known : s.path = some .direct → s.table = some (tableOf id)
  routes : ∀ n, s.tables n ≠ [] → n = tableOf id ∧ s.path = some .direct

theorem tableOf_ne_zero : tableOf id ≠ 0 := by
  unfold tableOf
  omega

theorem Routed.tables_of_hub (hs : Routed id s) (hpath : s.path ≠ some .direct) :
    s.tables = fun _ => [] := by
  funext n
  by_contra hn
  exact hpath (hs.routes n hn).2

theorem Routed.tableNum (hs : Routed id s) (hn : s.tableNum ≠ 0) : s.table = some (tableOf id) := by
  unfold State.tableNum at hn
  cases htable : s.table with
  | none =>
    rw [htable] at hn
    exact absurd rfl hn
  | some n => rw [hs.file n htable]

/-- A flush of the table that the file names leaves nothing. -/
theorem Routed.flush (hs : Routed id s) : flush s.tableNum s.tables = fun _ => [] := by
  funext n
  unfold DirectPath.flush
  by_cases hpath : s.path = some .direct
  · have hnum : s.tableNum = tableOf id := by rw [State.tableNum, hs.known hpath, Option.getD_some]
    rw [hnum, if_neg tableOf_ne_zero]
    by_cases hn : n = tableOf id
    · rw [hn, Function.update_self]
    · rw [Function.update_of_ne hn]
      by_contra hne
      exact hn (hs.routes n hne).1
  · rw [hs.tables_of_hub hpath]
    split
    · rfl
    · rw [Function.update_apply]
      exact ite_self _

/-- Nothing is in the tables and the path is not direct: all that is left is the number in the file.
-/
theorem Routed.of_empty (htables : s.tables = fun _ => []) (hpath : s.path ≠ some .direct)
    (hfile : ∀ n, s.table = some n → n = tableOf id) : Routed id s where
  file := hfile
  known hdirect := absurd hdirect hpath
  routes n hn := absurd (congrFun htables n) hn

theorem Routed.off (hs : Routed id s) : Routed id (directRoutesOff s) :=
  .of_empty hs.flush (by simp [directRoutesOff]) hs.file

theorem Routed.on (hs : Routed id s) (ht : directRoutesOn h s = some t) :
    Routed id t ∧ t.path = some .direct := by
  unfold directRoutesOn at ht
  split at ht
  · next hready =>
    obtain ⟨routes, -, rfl⟩ := Option.map_eq_some_iff.mp ht
    have htable := hs.tableNum hready.2.1
    have hnum : s.tableNum = tableOf id := by rw [State.tableNum, htable, Option.getD_some]
    refine ⟨⟨hs.file, fun _ => htable, fun n hn => ⟨?_, rfl⟩⟩, rfl⟩
    by_contra hne
    rw [hnum] at hn
    dsimp only at hn
    rw [Function.update_of_ne hne] at hn
    exact hne (hs.routes n hn).1
  · cases ht

theorem Routed.lost (hs : Routed id s) : Routed id (linkLost s) where
  file := hs.file
  known := hs.known
  routes _ hn := absurd rfl hn

theorem Routed.down (hs : Routed id s) : Routed id (directIfaceDown h s) := by
  unfold directIfaceDown
  split
  · exact hs.lost
  · exact hs

/-! The counters. -/

/-- The counters count no more successes, and while the path is direct no fewer failures, than the
history ends with. -/
structure Inv (id : ℕ) (s : State) : Prop extends Routed id s where
  oks : s.ok.getD 0 ≤ streak true s.results
  fails : s.path = some .direct → streak false s.results ≤ s.fail.getD 0 ∧
    s.fail.getD 0 < directFails

theorem Inv.of_hub (hrouted : Routed id s) (hoks : s.ok.getD 0 ≤ streak true s.results)
    (hpath : s.path ≠ some .direct) :
    Inv id s :=
  ⟨hrouted, hoks, fun hdirect => absurd hdirect hpath⟩

/-- What happens without a check: the invariant stays, and traffic does not become direct. -/
structure Quiet (id : ℕ) (s t : State) : Prop where
  inv : Inv id s → Inv id t
  path : t.path = some .direct → s.path = some .direct

theorem Quiet.refl : Quiet id s s := ⟨fun h => h, fun h => h⟩

theorem Quiet.trans {u : State} (h : Quiet id s t) (h' : Quiet id t u) : Quiet id s u :=
  ⟨fun hs => h'.inv (h.inv hs), fun hu => h.path (h'.path hu)⟩

/-- Other files change. -/
theorem Quiet.of_same (htable : t.table = s.table) (htables : t.tables = s.tables)
    (hpath : t.path = s.path)
    (hok : t.ok = s.ok) (hfail : t.fail = s.fail) (hresults : t.results = s.results) :
    Quiet id s t := by
  refine ⟨fun hs => ⟨⟨?_, ?_, ?_⟩, ?_, ?_⟩, fun ht => hpath ▸ ht⟩
  · exact htable ▸ hs.file
  · exact htable ▸ hpath ▸ hs.known
  · exact htables ▸ hpath ▸ hs.routes
  · exact hok ▸ hresults ▸ hs.oks
  · exact hfail ▸ hresults ▸ hpath ▸ hs.fails

theorem Quiet.off : Quiet id s (directRoutesOff s) :=
  ⟨fun hs => .of_hub hs.toRouted.off hs.oks (by simp [directRoutesOff]), by simp [directRoutesOff]⟩

theorem Quiet.lost : Quiet id s (linkLost s) :=
  ⟨fun hs => ⟨hs.toRouted.lost, hs.oks, hs.fails⟩, fun h => h⟩

theorem Quiet.down : Quiet id s (directIfaceDown h s) := by
  unfold directIfaceDown
  split
  · exact .lost
  · exact .refl

/-- The counters and the path after `direct_routes_on`. -/
theorem directRoutesOn_eq (ht : directRoutesOn h s = some t) :
    t.ok = s.ok ∧ t.fail = s.fail ∧ t.results = s.results ∧ t.path = some .direct := by
  unfold directRoutesOn at ht
  split at ht
  · obtain ⟨routes, -, rfl⟩ := Option.map_eq_some_iff.mp ht
    exact ⟨rfl, rfl, rfl, rfl⟩
  · cases ht

/-- The routes are renewed while the path is direct. -/
theorem Quiet.renew (hpath : s.path = some .direct) : Quiet id s ((directRoutesOn h s).getD s) := by
  cases hon : directRoutesOn h s with
  | none => exact .refl
  | some t =>
    obtain ⟨hok, hfail, hresults, -⟩ := directRoutesOn_eq hon
    refine ⟨fun hs => ⟨(hs.toRouted.on hon).1, ?_, fun _ => ?_⟩, fun _ => hpath⟩
    · rw [Option.getD_some, hok, hresults]
      exact hs.oks
    · rw [Option.getD_some, hfail, hresults]
      exact hs.fails hpath

/-- The files of a link are removed when the path is back. -/
theorem Quiet.clear (hpath : s.path ≠ some .direct) (htable : t.table = s.table ∨ t.table = none)
    (htables : t.tables = s.tables)
    (htpath : t.path ≠ some .direct) (hok : t.ok = none) : Quiet id s t := by
  refine ⟨fun hs => .of_hub (.of_empty (htables.trans (hs.toRouted.tables_of_hub hpath)) htpath ?_)
    ?_ htpath,
    fun h => absurd h htpath⟩
  · intro n hn
    rcases htable with hsame | hnone
    · exact hs.file n (hsame ▸ hn)
    · rw [hnone] at hn
      cases hn
  · rw [hok]
    exact Nat.zero_le _

theorem directIfaceDown_path : (directIfaceDown h s).path = s.path := by
  unfold directIfaceDown
  split <;> rfl

theorem Quiet.removeIface : Quiet id s (removeIface h s) := by
  unfold DirectPath.removeIface
  split
  · exact Quiet.down.trans (.of_same rfl rfl rfl rfl rfl rfl)
  · exact .refl

theorem removeIface_path : (removeIface h s).path = s.path := by
  unfold removeIface
  split
  · exact directIfaceDown_path
  · rfl

theorem directTeardown_path : (directTeardown h false s).path = some .hub := removeIface_path

theorem Quiet.teardown {forget : Bool} : Quiet id s (directTeardown h forget s) := by
  have hhub : (DirectPath.removeIface h (directRoutesOff s)).path ≠ some .direct := by
    rw [removeIface_path]
    simp [directRoutesOff]
  refine (Quiet.off.trans (Quiet.removeIface (h := h))).trans ?_
  cases forget with
  | true => exact .clear hhub (.inr rfl) rfl (by simp [directTeardown]) rfl
  | false => exact .clear hhub (.inl rfl) rfl hhub rfl

theorem Quiet.inPlace {staged : List Line} {hash : String} :
    Quiet id s (updateInPlace h staged hash s) := by
  have hsame : Quiet id s { s with conf := some staged, hash := some hash } :=
    .of_same rfl rfl rfl rfl rfl rfl
  unfold updateInPlace
  dsimp only
  split
  · next hpath => exact hsame.trans (.renew hpath)
  · exact hsame

theorem Quiet.bounce {staged : List Line} {hash : String} :
    Quiet id s (restartIface h staged hash s) := by
  have hdown : Quiet id s
      { directIfaceDown h (directRoutesOff s) with hash := none, conf := some staged } :=
    (Quiet.off.trans Quiet.down).trans (.of_same rfl rfl rfl rfl rfl rfl)
  unfold restartIface
  dsimp only
  split
  · -- a new interface: the health begins anew
    have hhub : (directIfaceDown h (directRoutesOff s)).path ≠ some .direct := by
      rw [directIfaceDown_path]
      simp [directRoutesOff]
    exact hdown.trans ⟨fun hs => .of_hub ⟨hs.file, hs.known, hs.routes⟩ (Nat.zero_le _) hhub,
      fun h => h⟩
  · exact hdown

theorem Quiet.up {cfg : List Line} {hash : String} : Quiet id s (directUp h cfg hash s) := by
  unfold directUp
  split
  · exact .teardown
  split
  · exact .refl
  dsimp only
  split
  · exact .inPlace
  · exact .bounce

theorem Quiet.entry {e : Entry} : Quiet id s (directEntry id h s e) := by
  have hknown : Quiet id s
      { s with iface := true, table := some (tableOf id), key := s.key <|> h.genkey } := by
    refine ⟨fun hs => ⟨⟨fun n hn => (Option.some.inj hn).symm, fun _ => rfl, hs.routes⟩, hs.oks,
      hs.fails⟩, fun h => h⟩
  refine hknown.trans ?_
  unfold directEntry
  dsimp only
  split
  · exact .refl
  cases e with
  | keep => exact .refl
  | off =>
    dsimp only
    split
    · exact .teardown
    · exact .refl
  | on cfg hash peer routes =>
    dsimp only
    split
    · exact .of_same rfl rfl rfl rfl rfl rfl
    · have hsame : ∀ s : State, Quiet id s { s with routes := some routes, peer := some peer } :=
        fun _ => .of_same rfl rfl rfl rfl rfl rfl
      exact (hsame _).trans .up

theorem Quiet.step {entries : List (Host × Entry)} : Quiet id s (directStep id h entries s) := by
  unfold directStep
  split
  · split
    · exact .teardown
    · exact .refl
  · clear * -
    induction entries generalizing s with
    | nil => exact .refl
    | cons e entries ih => exact Quiet.entry.trans ih

theorem Quiet.allOff : Quiet id s (directAllOff s) := by
  unfold directAllOff
  split
  · exact .off
  · exact .refl

theorem Quiet.restore : Quiet id s (restore h s) := by
  unfold DirectPath.restore
  split
  · exact .refl
  dsimp only
  split
  · exact Quiet.off.trans (.of_same rfl rfl rfl rfl rfl rfl)
  split
  · exact Quiet.off.trans (.of_same rfl rfl rfl rfl rfl rfl)
  · exact .off

theorem Quiet.reboot : Quiet id s { linkLost s with path := none, ok := none, fail := none } := by
  refine ⟨fun hs => .of_hub (.of_empty rfl (by simp) hs.file) (Nat.zero_le _) (by simp), by simp⟩

/-! A check. -/

theorem Routed.switch {ok : Bool} {fails oks : ℕ} (hs : Routed id s) :
    Routed id (switchPath h ok fails oks s) := by
  have hon : Routed id ((directRoutesOn h s).getD s) := by
    cases hon : directRoutesOn h s with
    | none => exact hs
    | some t => exact (hs.on hon).1
  unfold switchPath
  split
  · split
    · exact hs.off
    · exact hon
  split
  · exact hon
  · exact hs

/-- Traffic is direct after a check when it was before and few checks have failed, or when enough
have succeeded. -/
theorem switchPath_direct {ok : Bool} {fails oks : ℕ}
    (ht : (switchPath h ok fails oks s).path = some .direct) :
    s.path = some .direct ∧ fails < directFails ∨ ok = true ∧ directOks ≤ oks := by
  unfold switchPath at ht
  split at ht
  · next hpath =>
    split at ht
    · simp [directRoutesOff] at ht
    · next hfails => exact .inl ⟨hpath, Nat.not_le.mp hfails⟩
  · next hpath =>
    split at ht
    · next hoks => exact .inr hoks
    · exact absurd ht hpath

theorem countChecks_oks {ok : Bool} {fails oks : ℕ} (hoks : oks ≤ streak true results) :
    (countChecks ok fails oks).2 ≤ streak true (ok :: results) := by
  cases ok with
  | false => exact Nat.zero_le _
  | true =>
    rw [streak_cons_self]
    change (if oks < 1000 then oks + 1 else oks) ≤ _
    split <;> omega

theorem countChecks_fails {ok : Bool} {fails oks : ℕ} (hfails : streak false results ≤ fails)
    (hfew : fails < directFails) :
    streak false (ok :: results) ≤ (countChecks ok fails oks).1 := by
  cases ok with
  | false =>
    rw [streak_cons_self]
    change _ ≤ if fails < 1000 then fails + 1 else fails
    unfold directFails at hfew
    split <;> omega
  | true =>
    have hnone : streak false (true :: results) = 0 := streak_cons_not
    rw [hnone]
    exact Nat.zero_le _

/-- What a check leaves: a result, and traffic that is direct for a reason. -/
theorem check {ok : Bool} (hs : Inv id s) :
    let (fails, oks) := countChecks ok (s.fail.getD 0) (s.ok.getD 0)
    let t :=
      { switchPath h ok fails oks s with
        fail := some fails, ok := some oks, results := ok :: s.results }
    Inv id t ∧
      (t.path = some .direct → s.path ≠ some .direct → ok = true ∧
        directOks ≤ streak true t.results) := by
  have hoks : (countChecks ok (s.fail.getD 0) (s.ok.getD 0)).2 ≤ streak true (ok :: s.results) :=
    countChecks_oks hs.oks
  have hrouted : Routed id (switchPath h ok (countChecks ok (s.fail.getD 0) (s.ok.getD 0)).1
    (countChecks ok (s.fail.getD 0) (s.ok.getD 0)).2 s) := hs.toRouted.switch
  refine ⟨⟨⟨hrouted.file, hrouted.known, hrouted.routes⟩, hoks, fun ht => ?_⟩, fun ht hbefore => ?_⟩
  · rcases switchPath_direct ht with ⟨hpath, hfew⟩ | ⟨rfl, -⟩
    · obtain ⟨hfails, hold⟩ := hs.fails hpath
      exact ⟨countChecks_fails hfails hold, hfew⟩
    · have hnone : streak false (true :: s.results) = 0 := streak_cons_not
      exact ⟨Nat.le_trans (Nat.le_of_eq hnone) (Nat.zero_le _), Nat.zero_lt_succ 2⟩
  · rcases switchPath_direct ht with ⟨hpath, -⟩ | ⟨hok, henough⟩
    · exact absurd hpath hbefore
    · exact ⟨hok, Nat.le_trans henough hoks⟩

theorem directHealth_spec (hs : Inv id s) : Inv id (directHealth h s) ∧
    ((directHealth h s).path = some .direct → s.path ≠ some .direct →
      (directHealth h s).results = true :: s.results ∧ directOks ≤ streak true
      (directHealth h s).results) := by
  unfold directHealth
  split
  · exact ⟨hs, fun ht hbefore => absurd ht hbefore⟩
  split
  · -- the filter has lost the interface: the link is taken down, which counts as a failed check
    have htorn : Inv id (directTeardown h false s) := Quiet.teardown.inv hs
    have hhub : (directTeardown h false s).path ≠ some .direct := by
      rw [directTeardown_path]
      simp
    exact ⟨.of_hub ⟨htorn.file, htorn.known, htorn.routes⟩ (Nat.zero_le _) hhub, fun ht =>
      absurd ht hhub⟩
  · dsimp only
    have hup : ∀ up, Inv id { s with linkUp := up } :=
      fun up => ⟨⟨hs.file, hs.known, hs.routes⟩, hs.oks, hs.fails⟩
    refine ⟨(check (hup _)).1, fun ht hbefore => ?_⟩
    obtain ⟨hok, henough⟩ := (check (hup _)).2 ht hbefore
    refine ⟨?_, henough⟩
    rw [hok]

theorem next_inv {a : Act} (hs : Inv id s) : Inv id (next id s a) := by
  cases a with
  | step h entries => exact Quiet.step.inv hs
  | health h => exact (directHealth_spec hs).1
  | stop => exact Quiet.allOff.inv hs
  | start h => exact Quiet.restore.inv hs
  | linkDown => exact Quiet.lost.inv hs
  | linkUp => exact ⟨⟨hs.file, hs.known, hs.routes⟩, hs.oks, hs.fails⟩
  | reboot => exact Quiet.reboot.inv hs

/-- Only a check makes traffic direct. -/
theorem next_direct {a : Act} (hs : Inv id s) (ht : (next id s a).path = some .direct)
    (hbefore : s.path ≠ some .direct) :
    (∃ h, a = .health h) ∧ (next id s a).results = true :: s.results ∧ directOks ≤ streak true
    (next id s a).results := by
  cases a with
  | step h entries => exact absurd (Quiet.step.path ht) hbefore
  | health h => exact ⟨⟨h, rfl⟩, (directHealth_spec hs).2 ht hbefore⟩
  | stop =>
    have hquiet : Quiet id s (directAllOff s) := .allOff
    exact absurd (hquiet.path ht) hbefore
  | start h =>
    have hquiet : Quiet id s (restore h s) := .restore
    exact absurd (hquiet.path ht) hbefore
  | linkDown => exact absurd ht hbefore
  | linkUp => exact absurd ht hbefore
  | reboot => cases ht

/-! Whole runs. -/

theorem initial_inv : Inv id State.initial where
  file _ hn := absurd hn.symm (Option.some_ne_none _)
  known hpath := absurd hpath.symm (Option.some_ne_none _)
  routes _ hn := absurd rfl hn
  oks := Nat.zero_le _
  fails hpath := absurd hpath.symm (Option.some_ne_none _)

theorem run_inv (acts : List Act) (hs : Inv id s) : Inv id (acts.foldl (next id) s) := by
  induction acts generalizing s with
  | nil => exact hs
  | cons a acts ih => exact ih (next_inv hs)

/-- Whatever happens to a link: routes only while the path is direct, a direct path only while the
history ends with fewer failed checks than `DIRECT_FAILS`, and direct again only by a check that
ends at least `DIRECT_OKS` successful ones. -/
theorem path_hysteresis (id : ℕ) (acts : List Act) :
    let s := acts.foldl (next id) State.initial
    (s.tables (tableOf id) ≠ [] → s.path = some .direct) ∧
    (s.path = some .direct → streak false s.results < directFails) ∧
    ∀ a, s.path ≠ some .direct → (next id s a).path = some .direct →
      (∃ h, a = .health h) ∧ (next id s a).results = true :: s.results ∧
        directOks ≤ streak true (next id s a).results := by
  have hinv : Inv id (acts.foldl (next id) State.initial) := run_inv acts initial_inv
  refine ⟨fun hroutes => (hinv.routes _ hroutes).2, fun hpath => ?_, fun a hbefore ht =>
    next_direct hinv ht hbefore⟩
  obtain ⟨hle, hlt⟩ := hinv.fails hpath
  exact Nat.lt_of_le_of_lt hle hlt

/-- A gateway on which everything works. -/
def sampleHost (pong : Bool) : Host :=
  ⟨true, [], fun _ => true, some "k".toList, true, true, true, true, true, true, 10, pong⟩

/-- A link comes up, and its partner answers for a while. -/
def sampleActs (pongs fails : ℕ) : List Act :=
  [.step (sampleHost true) [(sampleHost true, .on ["[Interface]".toList] "c" "172.16.0.2" [])]] ++
    List.replicate pongs (.health (sampleHost true)) ++ List.replicate fails
      (.health (sampleHost false))

example :
    ([(2, 0), (3, 0), (3, 2), (3, 3)].map fun p =>
      ((sampleActs p.1 p.2).foldl (next 1) State.initial).path) =
    [some .hub, some .direct, some .direct, some .hub] := by decide

end FloppyGuard.DirectPath
