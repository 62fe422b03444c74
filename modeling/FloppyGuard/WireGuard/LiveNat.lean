import FloppyGuard.Lib.Upkeep
import FloppyGuard.WireGuard.HubConf

/-! `_reconcileMasqLive` next to `_rewriteHubConf` in one sync: the two decide who owns a NAT rule
from different records. What `-o nic -s cidr` stands for in the table is a parameter, so that two
spellings of a network may be one rule. -/
namespace FloppyGuard.WireGuard

open Text

/-! The reconcile. -/

inductive MasqChange
  | added (key : String)
  | removed (key : String)
deriving DecidableEq

structure NatState (α : Type) where
  live : List α
  changes : List MasqChange

/-- The rules to have, by key. -/
def wantMasq (ifaceName : String) (masqueradeIfaces : List Nic) : Table String Nic :=
  masqueradeIfaces.foldl (fun want n =>
    if n.name = ifaceName || !isValidNetwork n.cidr then want
    else want.set (masqKey n.name n.cidr) n) .empty

def keyNic (key : String) : Option Nic :=
  (keyParts key.toList).map fun p => ⟨String.ofList p.1, String.ofList p.2⟩

/-- The keys carried before that are not wanted any more. -/
def staleMasq (ifaceName : String) (want : Table String Nic) (previousOwned : List String) :
    List (String × Nic) :=
  previousOwned.filterMap fun key =>
    if key ∈ want.keys then none
    else ((keyNic key).filter fun n => n.name ≠ ifaceName && isValidNetwork n.cidr).map (key, ·)

section Reconcile

variable {α : Type} [DecidableEq α] (rule : Nic → α)

/-- `-C` for a key carried before, else `-A`. -/
def addWanted (previousOwned : List String) (s : NatState α) (e : String × Nic) : NatState α :=
  if e.1 ∈ previousOwned && decide (rule e.2 ∈ s.live) then s
  else ⟨s.live ++ [rule e.2], s.changes ++ [.added e.1]⟩

/-- `-D`: the first copy goes, if there is one. -/
def dropStale (s : NatState α) (e : String × Nic) : NatState α :=
  if rule e.2 ∈ s.live then ⟨s.live.erase (rule e.2), s.changes ++ [.removed e.1]⟩ else s

/-- `_reconcileMasqLive`; without an iptables binary it leaves the table alone. -/
def reconcileMasqLive (iptBin : Option String) (ifaceName : String) (masqueradeIfaces : List Nic)
    (previousOwned : List String) (live : List α) : NatState α :=
  match iptBin with
  | none => ⟨live, []⟩
  | some _ =>
    let want := wantMasq ifaceName masqueradeIfaces
    (staleMasq ifaceName want previousOwned).foldl (dropStale rule)
      (want.entries.foldl (addWanted rule previousOwned) ⟨live, []⟩)

end Reconcile

/-! One sync. -/

/-- What one sync works with besides the conf and the table. -/
structure HubSync where
  ifaceName : String
  peerUpdates : Table String (List String)
  allRouteNets : List String
  physicalIfaces : List Nic
  iptBin : Option String

namespace HubSync

variable (sync : HubSync) (lines : List String)

def input : HubInput where
  ifaceName := sync.ifaceName
  peerUpdates := sync.peerUpdates
  allRouteNets := sync.allRouteNets
  masqueradeIfaces := masqueradeIfacesOf sync.physicalIfaces (tunnelSubnetFromConfLines lines)
    sync.allRouteNets

def want : Table String Nic := wantMasq sync.ifaceName (sync.input lines).masqueradeIfaces

def stale : List (String × Nic) :=
  staleMasq sync.ifaceName (sync.want lines) (previousOwnedMasq lines)

def nat {α : Type} [DecidableEq α] (rule : Nic → α) (live : List α) : NatState α :=
  reconcileMasqLive rule sync.iptBin sync.ifaceName (sync.input lines).masqueradeIfaces
    (previousOwnedMasq lines) live

end HubSync

/-! The commands the rewrite leaves to the operator. -/

/-- A scan that only keeps track of the sections. -/
def hookScan (s : Bool × List String) (rawLine : String) : Bool × List String :=
  let t := trim rawLine.toList
  if t = "[Peer]".toList then (true, s.2)
  else if startsWith "[" t then (false, s.2)
  else if s.1 then s else (s.1, s.2 ++ [rawLine])

/-- The lines outside `[Peer]` sections, without section headers. -/
def outsidePeers (lines : List String) : List String := (lines.foldl hookScan (false, [])).2

def postUpLines (lines : List String) : List String :=
  (outsidePeers lines).filter fun l => startsWith "PostUp" (trim l.toList)

/-- The operator's commands in the `PostUp` lines. -/
def keptCmds (inp : HubInput) (lines : List String) : List String :=
  (postUpLines lines).flatMap fun l =>
    (operatorCmds inp.ifaceName (inp.ownedMasq lines) (trim (afterEq l.toList))).map String.ofList

variable {inp : HubInput} {lines : List String} {l : String}

/-- A line that starts with a key has no marker. -/
theorem masqMarker_of_startsWith {key : String} {t : List Char}
    (hkey : key.toList.head?.any (· ≠ '#') = true)
    (h : startsWith key t = true) : masqMarker t = none := by
  obtain ⟨rest, rfl⟩ := List.isPrefixOf_iff_prefix.mp h
  cases hk : key.toList with
  | nil => simp [hk] at hkey
  | cons c cs =>
    have hc : c ≠ '#' := by simpa [hk] using hkey
    unfold masqMarker
    split
    · next heq => exact absurd (List.cons.inj heq).1 hc
    · rfl

theorem startsWith_header : startsWith "[" "[Peer]".toList = true := by decide

theorem hookScan_line {q : Bool × List String} (hheader : startsWith "[" (trim l.toList) = false) :
    hookScan q l = if q.1 = true then q else (q.1, q.2 ++ [l]) := by
  have hpeer : trim l.toList ≠ "[Peer]".toList := by
    intro he
    rw [he, startsWith_header] at hheader
    cases hheader
  unfold hookScan
  dsimp only
  rw [if_neg hpeer, if_neg (by simp [hheader])]

/-- The two scans agree on the sections, and the rewrite has a hook line for each `PostUp` line
seen. -/
structure ScanRel (inp : HubInput) (owned : List String) (s : HubScan) (q : Bool × List String) :
    Prop where
  inPeer : s.inPeer = q.1
  hooks : ∀ l ∈ q.2, startsWith "PostUp" (trim l.toList) = true → hookLine inp owned true l ∈ s.out

/-- A line that is no `PostUp` line outside a peer. -/
theorem ScanRel.other {owned : List String} {s s' : HubScan} {q : Bool × List String}
    (h : ScanRel inp owned s q)
    {rawLine : String} {ys : List String} (hout : s'.out = s.out ++ ys) (hin : s'.inPeer = s.inPeer)
    (hheader : startsWith "[" (trim rawLine.toList) = false)
    (hnot : s.inPeer = true ∨ startsWith "PostUp" (trim rawLine.toList) = false) :
    ScanRel inp owned s' (hookScan q rawLine) := by
  have keep : ∀ l ∈ q.2, startsWith "PostUp" (trim l.toList) = true →
      hookLine inp owned true l ∈ s'.out :=
    fun l hl hp => hout ▸ List.mem_append_left _ (h.hooks l hl hp)
  rw [hookScan_line hheader]
  cases hq : q.1 with
  | true => exact ⟨hin.trans h.inPeer, by simpa using keep⟩
  | false =>
    have hpost := hnot.resolve_left (by simp [h.inPeer, hq])
    refine ⟨by simp [hin, h.inPeer, hq], fun l hl hp => ?_⟩
    rcases List.mem_append.mp hl with hl | hl
    · exact keep l hl hp
    · rw [List.mem_singleton.mp hl, hpost] at hp
      cases hp

theorem ScanRel.header {owned : List String} {s : HubScan} {q : Bool × List String}
    (h : ScanRel inp owned s q)
    {rawLine : String} (b : Bool) (ys : List String)
    (hsection : hookScan q rawLine = (b, q.2)) :
    ScanRel inp owned { s with inPeer := b, currentPubKey := none, out := s.out ++ ys }
      (hookScan q rawLine) := by
  rw [hsection]
  exact ⟨rfl, fun l hl hp => List.mem_append_left _ (h.hooks l hl hp)⟩

/-! The table after a sync. -/

section Upkeep

variable {α : Type} [DecidableEq α]

/-- The rule of an entry. -/
def entryRule (rule : Nic → α) (e : String × Nic) : α := rule e.2

variable (rule : Nic → α) (es : List (String × Nic)) (s : NatState α)

theorem foldl_addWanted (owned : List String) :
    (es.foldl (addWanted rule owned) s).live = es.foldl
    (Upkeep.add (entryRule rule) (·.1 ∈ owned)) s.live ∧
      ∀ key, .removed key ∈ (es.foldl (addWanted rule owned) s).changes →
      .removed key ∈ s.changes := by
  induction es generalizing s with
  | nil => exact ⟨rfl, fun _ => id⟩
  | cons e es ih =>
    rw [List.foldl_cons, List.foldl_cons, addWanted, Upkeep.add, entryRule]
    split
    · exact ih s
    · refine ⟨(ih _).1, fun key h => ?_⟩
      simpa using (ih _).2 key h

theorem foldl_dropStale :
    (es.foldl (dropStale rule) s).live = es.foldl (Upkeep.drop (entryRule rule)) s.live ∧
    ∀ key, .removed key ∈ (es.foldl (dropStale rule) s).changes ↔
      .removed key ∈ s.changes ∨ ∃ e ∈ Upkeep.dropped (entryRule rule) es s.live, e.1 = key := by
  induction es generalizing s with
  | nil => exact ⟨rfl, fun _ => by simp [Upkeep.dropped]⟩
  | cons e es ih =>
    rw [List.foldl_cons, List.foldl_cons, dropStale, Upkeep.drop, Upkeep.dropped, entryRule]
    by_cases hmem : rule e.2 ∈ s.live
    · rw [if_pos hmem, if_pos hmem]
      refine ⟨(ih _).1, fun key => ?_⟩
      rw [(ih _).2]
      simp [or_assoc, eq_comm]
    · rw [if_neg hmem, if_neg hmem, List.erase_of_not_mem hmem]
      exact ih s

end Upkeep

/-! The two records. -/

section Agreement

variable {α : Type} [DecidableEq α] (rule : Nic → α) (adds : String → Option α) (sync : HubSync)
  (lines : List String)
  (live : List α)

/-- The marker records the rule under a key that is not wanted any more. -/
def Recorded (a : α) : Prop :=
  ∃ key nic, key ∈ parseMasqMarker lines ∧ key ∉ (sync.want lines).keys ∧ keyNic key = some nic ∧
    rule nic = a

/-- No command that is left to the operator in a `PostUp` line adds the rule. -/
def NotKept (a : α) : Prop := ∀ cmd ∈ keptCmds (sync.input lines) lines, adds cmd ≠ some a

/-- The reconcile spares the operator's rules, removes only what the marker records and nobody
wants, and leaves every wanted rule in the table. -/
structure Agrees : Prop where
  spared : ∀ key nic, .removed key ∈ (sync.nat lines rule live).changes → keyNic key = some nic →
    NotKept adds sync lines (rule nic)
  recorded : ∀ key nic, .removed key ∈ (sync.nat lines rule live).changes → keyNic key = some nic →
    Recorded rule sync lines (rule nic)
  present : ∀ n ∈ (sync.want lines).values, rule n ∈ (sync.nat lines rule live).live

/-- Every stale key whose rule is there to remove stands for a rule the marker records and the
operator does not add, and no wanted rule has as many stale keys as copies. -/
def Tidy : Prop :=
  match sync.iptBin with
  | none => ∀ n ∈ (sync.want lines).values, rule n ∈ live
  | some _ =>
    (∀ e ∈ sync.stale lines, (rule e.2 ∈ live ∨ ∃ n ∈ (sync.want lines).values, rule n = rule e.2) →
      Recorded rule sync lines (rule e.2) ∧ NotKept adds sync lines (rule e.2)) ∧
    ∀ n ∈ (sync.want lines).values, Upkeep.spellings (entryRule rule) (sync.stale lines) (rule n) <
      Upkeep.copies (entryRule rule) (·.1 ∈ previousOwnedMasq lines) (sync.want lines).entries live
        (rule n)

variable {rule adds sync lines live}

theorem keyNic_of_mem_stale {e : String × Nic} (h : e ∈ sync.stale lines) :
    keyNic e.1 = some e.2 := by
  obtain ⟨key, -, h⟩ := List.mem_filterMap.mp h
  split at h
  · cases h
  · obtain ⟨nic, hnic, rfl⟩ := Option.map_eq_some_iff.mp h
    exact (Option.filter_eq_some_iff.mp hnic).1

theorem mem_of_mem_dropped {es : List (String × Nic)} {e : String × Nic}
    (h : e ∈ Upkeep.dropped (entryRule rule) es live) : e ∈ es := by
  induction es generalizing live with
  | nil => exact h
  | cons f es ih =>
    unfold Upkeep.dropped at h
    split at h
    · rcases List.mem_cons.mp h with rfl | h
      · exact List.mem_cons_self
      · exact List.mem_cons_of_mem _ (ih h)
    · exact List.mem_cons_of_mem _ (ih h)

/-- The table between the additions and the removals. -/
def added (rule : Nic → α) (sync : HubSync) (lines : List String) (live : List α) : List α :=
  (sync.want lines).entries.foldl (Upkeep.add (entryRule rule) (·.1 ∈ previousOwnedMasq lines)) live

theorem mem_added {a : α} : a ∈ added rule sync lines live ↔
    a ∈ live ∨ ∃ n ∈ (sync.want lines).values, rule n = a := by
  rw [added, Upkeep.mem_foldl_add]
  refine or_congr_right ⟨?_, ?_⟩
  · rintro ⟨e, he, rfl⟩
    exact ⟨e.2, List.mem_map_of_mem he, rfl⟩
  · rintro ⟨n, hn, rfl⟩
    obtain ⟨e, he, rfl⟩ := List.mem_map.mp hn
    exact ⟨e, he, rfl⟩

theorem nat_of_some (rule : Nic → α) (lines : List String) (live : List α) {bin : String}
    (hbin : sync.iptBin = some bin) :
    (sync.nat lines rule live).live = (sync.stale lines).foldl (Upkeep.drop (entryRule rule))
    (added rule sync lines live) ∧
      ∀ key, .removed key ∈ (sync.nat lines rule live).changes ↔
        ∃ e ∈ Upkeep.dropped (entryRule rule) (sync.stale lines) (added rule sync lines live),
        e.1 = key := by
  obtain ⟨hlive, hchanges⟩ :=
    foldl_addWanted rule (sync.want lines).entries ⟨live, []⟩ (previousOwnedMasq lines)
  obtain ⟨hlive', hchanges'⟩ := foldl_dropStale rule (sync.stale lines)
    ((sync.want lines).entries.foldl (addWanted rule (previousOwnedMasq lines)) ⟨live, []⟩)
  simp only [HubSync.nat, reconcileMasqLive, hbin]
  rw [hlive] at hlive' hchanges'
  refine ⟨hlive', fun key => (hchanges' key).trans ⟨?_, .inr⟩⟩
  rintro (h | h)
  · exact absurd (hchanges key h) List.not_mem_nil
  · exact h

/-- A sync leaves the operator's rules alone and the wanted ones in place exactly when no stale key,
the ones found in the hooks included, stands for a rule that is not the marker's to remove. -/
theorem reconcile_agrees_iff :
    Agrees rule adds sync lines live ↔ Tidy rule adds sync lines live := by
  unfold Tidy
  cases hbin : sync.iptBin with
  | none =>
    have hnat : sync.nat lines rule live = ⟨live, []⟩ := by
      simp only [HubSync.nat, reconcileMasqLive, hbin]
    constructor
    · intro h n hn
      simpa [hnat] using h.present n hn
    · intro h
      exact ⟨by simp [hnat], by simp [hnat], by simpa [hnat] using h⟩
  | some bin =>
    obtain ⟨hlive, hremoved⟩ := nat_of_some rule lines live hbin
    have hcount (n : Nic) : rule n ∈ (sync.nat lines rule live).live ↔
        Upkeep.spellings (entryRule rule) (sync.stale lines) (rule n) <
          Upkeep.copies (entryRule rule) (·.1 ∈ previousOwnedMasq lines) (sync.want lines).entries
            live (rule n) := by
      rw [hlive, ← List.count_pos_iff, Upkeep.count_foldl_drop, added, Upkeep.count_foldl_add]
      omega
    constructor
    · intro h
      refine ⟨fun e he hthere => ?_, fun n hn => (hcount n).mp (h.present n hn)⟩
      have hdropped : ∃ f ∈ Upkeep.dropped (entryRule rule) (sync.stale lines)
        (added rule sync lines live),
          entryRule rule f = rule e.2 :=
            Upkeep.exists_dropped.mpr ⟨mem_added.mpr hthere, e, he, rfl⟩
      obtain ⟨f, hf, hrule⟩ := hdropped
      have hnic := keyNic_of_mem_stale (mem_of_mem_dropped hf)
      have hgone := (hremoved f.1).mpr ⟨f, hf, rfl⟩
      exact ⟨hrule ▸ h.recorded f.1 f.2 hgone hnic, hrule ▸ h.spared f.1 f.2 hgone hnic⟩
    · rintro ⟨hstale, hcopies⟩
      have both : ∀ key nic, .removed key ∈ (sync.nat lines rule live).changes →
        keyNic key = some nic →
          Recorded rule sync lines (rule nic) ∧ NotKept adds sync lines (rule nic) := by
        intro key nic hgone hnic
        obtain ⟨e, he, rfl⟩ := (hremoved key).mp hgone
        have hmem := mem_of_mem_dropped he
        obtain rfl : e.2 = nic := Option.some.inj ((keyNic_of_mem_stale hmem).symm.trans hnic)
        exact hstale e hmem (mem_added.mp (Upkeep.exists_dropped.mp ⟨e, he, rfl⟩).1)
      exact ⟨fun key nic hgone hnic => (both key nic hgone hnic).2, fun key nic hgone hnic =>
        (both key nic hgone hnic).1,
        fun n hn => (hcount n).mpr (hcopies n hn)⟩

end Agreement

/-! An operator's rule in the generator's form. -/

def sampleSync : HubSync where
  ifaceName := "wg0"
  peerUpdates := .empty
  allRouteNets := []
  physicalIfaces := []
  iptBin := some "iptables"

def sampleOperatorCmd : String :=
  "iptables -t nat -A POSTROUTING -o eth9 -s 10.5.0.0/24 -j MASQUERADE"

/-- The marker records that the last sync wrote no rule; the command is the operator's own. -/
def sampleConf : List String := ["# floppyguard-masq: -", "PostUp = " ++ sampleOperatorCmd]

/-- The rule a command in the generator's form adds. -/
def addsGenerated (cmd : String) : Option Nic := (generatedMasq cmd.toList).map fun p => ⟨p.1, p.2⟩

/-- The command stays in the conf and its rule goes. -/
theorem reconcile_removes_operator_rule :
    sampleOperatorCmd ∈ keptCmds (sampleSync.input sampleConf) sampleConf ∧
      .removed "eth9=10.5.0.0/24" ∈
        (sampleSync.nat sampleConf id [⟨"eth9", "10.5.0.0/24"⟩]).changes ∧
      ¬ Agrees id addsGenerated sampleSync sampleConf [⟨"eth9", "10.5.0.0/24"⟩] := by
  have hkept : sampleOperatorCmd ∈ keptCmds (sampleSync.input sampleConf) sampleConf := by
    decide +kernel
  have hgone : .removed "eth9=10.5.0.0/24" ∈
      (sampleSync.nat sampleConf id [⟨"eth9", "10.5.0.0/24"⟩]).changes := by
    decide +kernel
  exact ⟨hkept, hgone, fun h => h.spared _ ⟨"eth9", "10.5.0.0/24"⟩ hgone (by decide +kernel) _ hkept
    (by decide +kernel)⟩

end FloppyGuard.WireGuard
