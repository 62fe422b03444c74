import FloppyGuard.Agent.DirectPath

/-! The routes an agent keeps for its WireGuard interface (`sync_routes` in `agent.js`): the unicast
IPv4 routes of the main table. Metrics are left out: a network and a device name one route. -/
namespace FloppyGuard.SyncRoutes

/-- `kernel`: `proto kernel`; `onLink`: `scope link`. -/
structure Route where
  net : Cidr
  dev : String
  kernel : Bool
  onLink : Bool
deriving DecidableEq

/-- `ip` prints a slash: no host route and not the default route. -/
def Route.slashed (r : Route) : Bool := r.net.len ≠ 32 && r.net.len ≠ 0

section

variable (iface : String)

/-- `grep -v "dev $iface"` also leaves out the devices whose names go on after `iface`. -/
def physical (r : Route) : Bool := !iface.toList.isPrefixOf r.dev.toList && r.slashed

/-- Docker bridges are skipped. -/
def connected (r : Route) : Bool :=
  r.kernel && r.onLink && r.dev ≠ iface &&
    !(["docker", "br-", "veth"].any fun p => p.toList.isPrefixOf r.dev.toList) && r.slashed

def physNets (table : List Route) : List Cidr := (table.filter (physical iface)).map Route.net

def connNets (table : List Route) : List Cidr := (table.filter (connected iface)).map Route.net

/-- The routes of the interface that are not the kernel's own. -/
def ownRoutes (table : List Route) : List Cidr :=
  (table.filter fun r => r.dev = iface && !r.kernel && r.slashed).map Route.net

/-- `_nets_inside` of the own routes and the connected networks -/
def hijacked (table : List Route) : List Cidr :=
  (ownRoutes iface table).filter fun n => (connNets iface table).any fun c => c.Contains n

def currentWgRoutes (table : List Route) : List Cidr :=
  (table.filter fun r => r.dev = iface && r.slashed).map Route.net

def stale (wgNets : List Cidr) (table : List Route) : List Cidr :=
  (currentWgRoutes iface table).filter fun n => !wgNets.contains n

/-- `ip route del "$net" dev "$iface"` -/
def del (table : List Route) (net : Cidr) : List Route :=
  table.filter fun r => !(r.net = net && r.dev = iface)

/-- `ip route add "$net" dev "$iface"`, which fails where there is a route for the network. -/
def add (table : List Route) (net : Cidr) : List Route :=
  if table.any (·.net = net) then table else table ++ [⟨net, iface, false, true⟩]

/-- Host routes, the default route, and what overlaps a network of another device. -/
def skipped (phys : List Cidr) (net : Cidr) : Bool :=
  net.len = 32 || net.len = 0 || DirectPath.netOverlaps net phys

/-- The body of the loop over the allowed IPs. -/
def adds (phys : List Cidr) (table : List Route) (net : Cidr) : List Route :=
  if skipped phys net then table else add iface table net

/-- `sync_routes`; `wgNets` are the allowed IPs of all peers. -/
def syncRoutes (wgNets : List Cidr) (table : List Route) : List Route :=
  let phys := physNets iface table
  let kept := (hijacked iface table).foldl (del iface) table
  let current := (stale iface wgNets kept).foldl (del iface) kept
  wgNets.foldl (adds iface phys) current

end

variable {iface : String} {table t : List Route} {wgNets nets phys : List Cidr} {r : Route}
  {n : Cidr}

/-! Deletions. -/

theorem mem_del : r ∈ del iface table n ↔ r ∈ table ∧ ¬ (r.net = n ∧ r.dev = iface) := by
  simp [del, imp_iff_not_or]

theorem mem_foldl_del :
    r ∈ nets.foldl (del iface) table ↔ r ∈ table ∧ ¬ (r.net ∈ nets ∧ r.dev = iface) := by
  induction nets generalizing table with
  | nil => simp
  | cons n nets ih =>
    rw [List.foldl_cons, ih, mem_del, List.mem_cons]
    constructor
    · rintro ⟨⟨hr, hne⟩, hnot⟩
      refine ⟨hr, ?_⟩
      rintro ⟨rfl | hmem, hdev⟩
      · exact hne ⟨rfl, hdev⟩
      · exact hnot ⟨hmem, hdev⟩
    · rintro ⟨hr, hnot⟩
      exact ⟨⟨hr, fun h => hnot ⟨.inl h.1, h.2⟩⟩, fun h => hnot ⟨.inr h.1, h.2⟩⟩

theorem foldl_del_filter (nets : List Cidr) (table : List Route) :
    (nets.foldl (del iface) table).filter (fun r => r.dev ≠ iface) = table.filter fun r =>
      r.dev ≠ iface := by
  induction nets generalizing table with
  | nil => rfl
  | cons n nets ih =>
    rw [List.foldl_cons, ih, del, List.filter_filter]
    refine List.filter_congr fun r _ => ?_
    by_cases hdev : r.dev = iface <;> simp [hdev]

/-! Additions. -/

theorem adds_filter (net : Cidr) :
    (adds iface phys t net).filter (fun r => r.dev ≠ iface) = t.filter fun r => r.dev ≠ iface := by
  unfold adds add
  split
  · rfl
  · split
    · rfl
    · simp

theorem foldl_adds_filter (nets : List Cidr) (t : List Route) :
    (nets.foldl (adds iface phys) t).filter (fun r => r.dev ≠ iface) = t.filter fun r =>
      r.dev ≠ iface := by
  induction nets generalizing t with
  | nil => rfl
  | cons n nets ih => rw [List.foldl_cons, ih, adds_filter]

theorem mem_adds : r ∈ adds iface phys t n ↔
    r ∈ t ∨ r = ⟨n, iface, false, true⟩ ∧ skipped phys n = false ∧ ∀ x ∈ t, x.net ≠ n := by
  unfold adds add
  split
  · next hskip => simp [hskip]
  · next hskip =>
    split
    · next hany =>
      obtain ⟨x, hx, hnet⟩ := List.any_eq_true.mp hany
      constructor
      · exact .inl
      · rintro (h | ⟨-, -, hnone⟩)
        · exact h
        · exact absurd (of_decide_eq_true hnet) (hnone x hx)
    · next hany =>
      have hnone : ∀ x ∈ t, x.net ≠ n :=
        fun x hx hnet => hany (List.any_eq_true.mpr ⟨x, hx, decide_eq_true hnet⟩)
      rw [List.mem_append, List.mem_singleton]
      exact or_congr_right ⟨fun h => ⟨h, Bool.eq_false_iff.mpr hskip, hnone⟩, And.left⟩

/-- After the loop there is a route for each allowed network that is not skipped, and the new routes
are for such networks. -/
theorem foldl_adds (nets : List Cidr) (t : List Route) :
    (∀ r ∈ t, r ∈ nets.foldl (adds iface phys) t) ∧
    (∀ n ∈ nets, skipped phys n = false → ∃ r ∈ nets.foldl (adds iface phys) t, r.net = n) ∧
    ∀ r ∈ nets.foldl (adds iface phys) t, r ∈ t ∨ r.net ∈ nets ∧ skipped phys r.net = false ∧
    r.dev = iface := by
  induction nets generalizing t with
  | nil => exact ⟨fun r hr => hr, nofun, fun r hr => .inl hr⟩
  | cons m nets ih =>
    obtain ⟨hkeeps, hall, hnew⟩ := ih (adds iface phys t m)
    rw [List.foldl_cons]
    refine ⟨?_, ?_, ?_⟩
    · intro r hr
      exact hkeeps r (mem_adds.mpr (.inl hr))
    · intro n hn hskip
      rcases List.mem_cons.mp hn with rfl | hn
      · by_cases hthere : ∃ x ∈ t, x.net = n
        · obtain ⟨x, hx, hnet⟩ := hthere
          exact ⟨x, hkeeps x (mem_adds.mpr (.inl hx)), hnet⟩
        · refine ⟨⟨n, iface, false, true⟩, hkeeps _ (mem_adds.mpr (.inr ⟨rfl, hskip, ?_⟩)), rfl⟩
          exact fun x hx hnet => hthere ⟨x, hx, hnet⟩
      · exact hall n hn hskip
    · intro r hr
      rcases hnew r hr with h | ⟨hmem, hskip, hdev⟩
      · rcases mem_adds.mp h with h | ⟨rfl, hskip, -⟩
        · exact .inl h
        · exact .inr ⟨List.mem_cons_self, hskip, rfl⟩
      · exact .inr ⟨List.mem_cons_of_mem _ hmem, hskip, hdev⟩

/-! The whole step. -/

theorem routes_of_others (wgNets : List Cidr) (table : List Route) :
    (syncRoutes iface wgNets table).filter (fun r => r.dev ≠ iface) = table.filter fun r =>
      r.dev ≠ iface := by
  unfold syncRoutes
  simp only [foldl_adds_filter, foldl_del_filter]

theorem mem_of_other (hdev : r.dev ≠ iface) : r ∈ syncRoutes iface wgNets table ↔ r ∈ table := by
  have h : r ∈ (syncRoutes iface wgNets table).filter (fun r => r.dev ≠ iface) ↔
      r ∈ table.filter fun r => r.dev ≠ iface := by
    rw [routes_of_others]
  simpa [hdev] using h

theorem dev_of_physical (h : physical iface r = true) : r.dev ≠ iface := by
  rintro rfl
  have hself : r.dev.toList.isPrefixOf r.dev.toList = true := by simp
  simp [physical, hself] at h

theorem physNets_sync : physNets iface (syncRoutes iface wgNets table) = physNets iface table := by
  have hfilter : ∀ t : List Route,
      t.filter (physical iface) = (t.filter fun r => r.dev ≠ iface).filter (physical iface) := by
    intro t
    rw [List.filter_filter]
    refine List.filter_congr fun r _ => ?_
    cases h : physical iface r with
    | true => simp [dev_of_physical h]
    | false => rfl
  rw [physNets, hfilter, routes_of_others, ← hfilter, physNets]

theorem connNets_sync : connNets iface (syncRoutes iface wgNets table) = connNets iface table := by
  have hfilter : ∀ t : List Route,
      t.filter (connected iface) = (t.filter fun r => r.dev ≠ iface).filter (connected iface) := by
    intro t
    rw [List.filter_filter]
    refine List.filter_congr fun r _ => ?_
    by_cases hdev : r.dev = iface <;> simp [connected, hdev]
  rw [connNets, hfilter, routes_of_others, ← hfilter, connNets]

/-- No other device has a name that goes on after that of the interface. -/
def Named (iface : String) (table : List Route) : Prop :=
  ∀ r ∈ table, iface.toList.isPrefixOf r.dev.toList = true → r.dev = iface

theorem Named.sync (h : Named iface table) : Named iface (syncRoutes iface wgNets table) := by
  intro r hr hname
  by_cases hdev : r.dev = iface
  · exact hdev
  · exact h r ((mem_of_other hdev).mp hr) hname

theorem Named.mem_physNets (h : Named iface table) (hr : r ∈ table) (hdev : r.dev ≠ iface)
    (hslash : r.slashed = true) :
    r.net ∈ physNets iface table := by
  have hname : iface.toList.isPrefixOf r.dev.toList = false := by
    by_contra hname
    exact hdev (h r hr (Bool.not_eq_false _ ▸ hname))
  refine List.mem_map.mpr ⟨r, List.mem_filter.mpr ⟨hr, ?_⟩, rfl⟩
  simp [physical, hname, hslash]

theorem Named.physNets_of_connNets (h : Named iface table) (hn : n ∈ connNets iface table) :
    n ∈ physNets iface table := by
  obtain ⟨r, hr, rfl⟩ := List.mem_map.mp hn
  obtain ⟨hr, hconn⟩ := List.mem_filter.mp hr
  simp only [connected, Bool.and_eq_true, decide_eq_true_eq] at hconn
  exact h.mem_physNets hr hconn.1.1.2 hconn.2

theorem not_overlaps_of_not_skipped (h : skipped phys n = false) {p : Cidr} (hp : p ∈ phys) :
    ¬ n.Overlaps p := by
  intro hover
  have hskip : skipped phys n = true := by
    simp only [skipped, Bool.or_eq_true]
    exact .inr (List.any_eq_true.mpr ⟨p, hp, decide_eq_true hover⟩)
  rw [h] at hskip
  cases hskip

/-- The tunnel routes are as the allowed IPs want them: none is stale, none takes a part of a
connected network, and every allowed network that does not meet another device's has one. -/
structure Synced (iface : String) (wgNets : List Cidr) (table : List Route) : Prop where
  allowed : ∀ r ∈ table, r.dev = iface → r.slashed = true → r.net ∈ wgNets
  apart : ∀ r ∈ table, r.dev = iface → r.kernel = false → r.slashed = true →
    ∀ c ∈ connNets iface table, ¬ c.Contains r.net
  routed : ∀ n ∈ wgNets, skipped (physNets iface table) n = false → ∃ r ∈ table, r.dev = iface ∧
    r.net = n

/-- What is there before the loop over the allowed IPs. -/
theorem mem_current
    (hr : r ∈ (stale iface wgNets ((hijacked iface table).foldl (del iface) table)).foldl
      (del iface)
      ((hijacked iface table).foldl (del iface) table)) (hdev : r.dev = iface) :
    r ∈ table ∧ r.net ∉ hijacked iface table ∧ (r.slashed = true → r.net ∈ wgNets) := by
  obtain ⟨hkept, hfresh⟩ := mem_foldl_del.mp hr
  obtain ⟨htable, hsafe⟩ := mem_foldl_del.mp hkept
  refine ⟨htable, fun hmem => hsafe ⟨hmem, hdev⟩, ?_⟩
  intro hslash
  by_contra hnot
  refine hfresh
    ⟨List.mem_filter.mpr ⟨List.mem_map.mpr ⟨r, List.mem_filter.mpr ⟨hkept, ?_⟩, rfl⟩, ?_⟩, hdev⟩
  · simp [hdev, hslash]
  · simpa using hnot

theorem mem_hijacked (hr : r ∈ table) (hdev : r.dev = iface) (hkernel : r.kernel = false)
    (hslash : r.slashed = true)
    {c : Cidr} (hc : c ∈ connNets iface table) (hin : c.Contains r.net) :
    r.net ∈ hijacked iface table := by
  refine List.mem_filter.mpr ⟨List.mem_map.mpr ⟨r, List.mem_filter.mpr ⟨hr, ?_⟩, rfl⟩, ?_⟩
  · simp [hdev, hkernel, hslash]
  · exact List.any_eq_true.mpr ⟨c, hc, decide_eq_true hin⟩

theorem slashed_of_not_skipped (h : skipped phys r.net = false) : r.slashed = true := by
  simp only [skipped, Bool.or_eq_false_iff, decide_eq_false_iff_not] at h
  simp [Route.slashed, h.1.1, h.1.2]

theorem Named.synced (h : Named iface table) :
    Synced iface wgNets (syncRoutes iface wgNets table) := by
  obtain ⟨-, hall, hnew⟩ := @foldl_adds iface (physNets iface table) wgNets
    ((stale iface wgNets ((hijacked iface table).foldl (del iface) table)).foldl (del iface)
      ((hijacked iface table).foldl (del iface) table))
  constructor
  · intro r hr hdev hslash
    rcases hnew r hr with hold | ⟨hmem, -, -⟩
    · exact (mem_current hold hdev).2.2 hslash
    · exact hmem
  · intro r hr hdev hkernel hslash c hc hin
    rw [connNets_sync] at hc
    rcases hnew r hr with hold | ⟨-, hskip, -⟩
    · obtain ⟨htable, hsafe, -⟩ := mem_current hold hdev
      exact hsafe (mem_hijacked htable hdev hkernel hslash hc hin)
    · exact not_overlaps_of_not_skipped hskip (h.physNets_of_connNets hc) (.inr hin)
  · intro n hn hskip
    rw [physNets_sync] at hskip
    obtain ⟨r, hr, rfl⟩ := hall n hn hskip
    by_cases hdev : r.dev = iface
    · exact ⟨r, hr, hdev, rfl⟩
    · -- a route of another device for the same network would have been skipped
      have hphys := h.mem_physNets ((mem_of_other hdev).mp hr) hdev (slashed_of_not_skipped hskip)
      exact absurd (.inl (PrefixBlock.contains_refl _)) (not_overlaps_of_not_skipped hskip hphys)

theorem foldl_adds_self (h : ∀ n ∈ nets, skipped phys n = false → ∃ r ∈ t, r.net = n) :
    nets.foldl (adds iface phys) t = t := by
  induction nets with
  | nil => rfl
  | cons n nets ih =>
    have hsame : adds iface phys t n = t := by
      unfold adds add
      split
      · rfl
      · next hskip =>
        obtain ⟨r, hr, hnet⟩ := h n List.mem_cons_self (Bool.eq_false_iff.mpr hskip)
        rw [if_pos (List.any_eq_true.mpr ⟨r, hr, decide_eq_true hnet⟩)]
    rw [List.foldl_cons, hsame]
    exact ih fun m hm => h m (List.mem_cons_of_mem _ hm)

theorem Synced.fixed (h : Synced iface wgNets table) : syncRoutes iface wgNets table = table := by
  have hsafe : hijacked iface table = [] := by
    refine List.filter_eq_nil_iff.mpr fun n hn hany => ?_
    obtain ⟨r, hr, rfl⟩ := List.mem_map.mp hn
    obtain ⟨hr, hown⟩ := List.mem_filter.mp hr
    obtain ⟨c, hc, hin⟩ := List.any_eq_true.mp hany
    simp only [Bool.and_eq_true, decide_eq_true_eq, Bool.not_eq_true'] at hown
    exact h.apart r hr hown.1.1 hown.1.2 hown.2 c hc (of_decide_eq_true hin)
  have hfresh : stale iface wgNets table = [] := by
    refine List.filter_eq_nil_iff.mpr fun n hn hnot => ?_
    obtain ⟨r, hr, rfl⟩ := List.mem_map.mp hn
    obtain ⟨hr, hown⟩ := List.mem_filter.mp hr
    simp only [Bool.and_eq_true, decide_eq_true_eq] at hown
    have hmem := h.allowed r hr hown.1 hown.2
    simp [hmem] at hnot
  simp only [syncRoutes, hsafe, List.foldl_nil, hfresh]
  refine foldl_adds_self fun n hn hskip => ?_
  obtain ⟨r, hr, -, hnet⟩ := h.routed n hn hskip
  exact ⟨r, hr, hnet⟩

/-- One call brings the tunnel routes in line and leaves every other route where it is. -/
theorem sync_routes_spec (wgNets : List Cidr) (table : List Route) (h : Named iface table) :
    Synced iface wgNets (syncRoutes iface wgNets table) ∧
    (syncRoutes iface wgNets table).filter (fun r => r.dev ≠ iface) = table.filter fun r =>
      r.dev ≠ iface :=
  ⟨h.synced, routes_of_others wgNets table⟩

def sampleNet (base : Ip) (len : Fin 33) : Cidr := .around base len (Nat.le_of_lt_succ len.isLt)

/-- A LAN, the tunnel's own network, a hook's route into the half of the LAN, and one for a network
that has gone. -/
def sampleTable : List Route :=
  [⟨sampleNet 0xc0a80100#32 24, "eth0", true, true⟩,
    ⟨sampleNet 0x0a070000#32 24, "wg0", true, true⟩,
    ⟨sampleNet 0xc0a80180#32 25, "wg0", false, true⟩,
      ⟨sampleNet 0x0a080000#32 24, "wg0", false, true⟩]

def sampleNets : List Cidr :=
  [sampleNet 0x0a070000#32 24, sampleNet 0xc0a80180#32 25, sampleNet 0x0a090000#32 16]

theorem sample_named : Named "wg0" sampleTable := by
  intro r hr
  simp only [sampleTable, List.mem_cons, List.not_mem_nil, or_false] at hr
  rcases hr with rfl | rfl | rfl | rfl <;> decide

theorem sync_routes_spec_sample :
    (syncRoutes "wg0" sampleNets sampleTable).map (fun r => (r.net.base.toNat, r.dev)) =
      [(0xc0a80100, "eth0"), (0x0a070000, "wg0"), (0x0a090000, "wg0")] ∧
    Synced "wg0" sampleNets (syncRoutes "wg0" sampleNets sampleTable) :=
  ⟨by decide +kernel, (sync_routes_spec sampleNets sampleTable sample_named).1⟩

/-- A call changes nothing exactly when the routes are in line, so a second call never does. -/
theorem sync_routes_settles (wgNets : List Cidr) (table : List Route) (h : Named iface table) :
    (syncRoutes iface wgNets table = table ↔ Synced iface wgNets table) ∧
    syncRoutes iface wgNets (syncRoutes iface wgNets table) = syncRoutes iface wgNets table := by
  refine ⟨⟨?_, Synced.fixed⟩, h.synced.fixed⟩
  intro hsame
  have hsynced : Synced iface wgNets (syncRoutes iface wgNets table) := h.synced
  rwa [hsame] at hsynced

theorem sync_routes_settles_sample :
    ¬ Synced "wg0" sampleNets sampleTable ∧
    syncRoutes "wg0" sampleNets (syncRoutes "wg0" sampleNets sampleTable) =
      syncRoutes "wg0" sampleNets sampleTable := by
  obtain ⟨hfixed, hagain⟩ := sync_routes_settles sampleNets sampleTable sample_named
  refine ⟨?_, hagain⟩
  intro hsynced
  have hsame := hfixed.mpr hsynced
  revert hsame
  decide +kernel

end FloppyGuard.SyncRoutes
