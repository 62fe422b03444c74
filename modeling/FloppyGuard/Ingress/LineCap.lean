import FloppyGuard.Ingress.Growth

/-! The caps of a filter while Freigaben and direct links are edited at the same time. -/
namespace FloppyGuard.Ingress

open Checked DirectLink

variable {w : World} {s t : State} {k n now : ℕ} {a b : Agent} {req : Request} {rules : List Rule}
  {lw : LinkWrite} {lt : LinkTable}

/-! What a direct link request does to the lines. -/

/-- The row an update writes to is enabled, and between the same agents, as when it was loaded. -/
def LinkWrite.SameSides (lw : LinkWrite) (lt : LinkTable) : Prop :=
  match lw with
  | .create _ => True
  | .update existing _ => ∀ l ∈ lt.rows, l.id = existing.id →
      l.enabled = existing.enabled ∧ l.agentAId = existing.agentAId ∧ l.agentBId = existing.agentBId

theorem serves_merge {existing l : Link} {patch : LinkPatch}
    (h : l.enabled = existing.enabled ∧ l.agentAId = existing.agentAId ∧
      l.agentBId = existing.agentBId) :
    (patch.merge l).serves k = (patch.merge existing).serves k := by
  simp [Link.serves, LinkPatch.merge, h.1, h.2.1, h.2.2]

/-- A rewrite that keeps no rewritten row keeps a sublist. -/
theorem filter_map_sublist {α : Type} {p : α → Bool} {f : α → α} {xs : List α}
    (h : ∀ x ∈ xs, f x = x ∨ p (f x) = false) : ((xs.map f).filter p).Sublist (xs.filter p) := by
  induction xs with
  | nil => exact List.Sublist.slnil
  | cons x xs ih =>
    have hrest := ih fun y hy => h y (List.mem_cons_of_mem _ hy)
    rw [List.map_cons, List.filter_cons, List.filter_cons]
    rcases h x List.mem_cons_self with hx | hx
    · rw [hx]
      split
      · exact hrest.cons_cons x
      · exact hrest
    · rw [if_neg (by simp [hx])]
      split
      · exact hrest.cons x
      · exact hrest

/-- An agent the written link does not serve loses links at most. -/
theorem write_sublist (hsame : lw.SameSides lt) (hno : lw.link.serves k = false) :
    ((lw.apply lt).rows.filter (·.serves k)).Sublist (lt.rows.filter (·.serves k)) := by
  cases lw with
  | create clean =>
    have hnew : ({ clean with id := lt.nextId } : Link).serves k = false := hno
    simp [LinkWrite.apply, Rows.insert, hnew]
  | update existing patch =>
    refine filter_map_sublist fun l hl => ?_
    by_cases hid : l.id = existing.id
    · exact Or.inr (by rw [if_pos (decide_eq_true hid), serves_merge (hsame l hl hid)]; exact hno)
    · exact Or.inl (if_neg (by simpa using hid))

/-- An agent the written link serves has that link and the others. -/
theorem write_count : ifaceCountOf (lw.apply lt).rows k ≤ 2 + enabledOthers lt.rows lw.link k := by
  rw [ifaceCountOf_eq, enabledOthers]
  cases lw with
  | create clean =>
    have hothers : lt.rows.filter (fun o => o.id ≠ (LinkWrite.create clean).link.id && o.serves k) =
        lt.rows.filter (·.serves k) := by
      refine List.filter_congr fun o ho => ?_
      have hid : o.id ≠ 0 := Nat.ne_of_gt (lt.ids o ho).1
      simp [LinkWrite.link, hid]
    rw [hothers]
    change 1 + ((lt.rows ++ [{ clean with id := lt.nextId }]).filter _).length ≤ _
    rw [List.filter_append, List.length_append]
    have hone := List.length_filter_le (·.serves k) [({ clean with id := lt.nextId } : Link)]
    rw [List.length_singleton] at hone
    omega
  | update existing patch =>
    have hcount := lt.length_filter_patch existing.id patch.merge (·.serves k)
    calc 1 + ((LinkWrite.update existing patch).apply lt |>.rows.filter (·.serves k)).length
        ≤ 1 + (1 + (lt.rows.filter fun o => decide (o.id ≠ existing.id) && o.serves k).length) :=
          Nat.add_le_add_left hcount 1
      _ = 2 + (lt.rows.filter fun o => decide (o.id ≠ existing.id) && o.serves k).length := by omega

/-- What a session has read it has checked. -/
structure SessionOk (o : LinkSession) : Prop where
  sideA : ∀ rules ∈ o.rulesA, ∃ others, o.others = some others ∧
    totalLineCount rules (2 + enabledOthers others o.write.link o.write.link.agentAId) ≤
      maxLinesTotal
  sideB : ∀ rules ∈ o.rulesB, ∃ others, o.others = some others ∧
    totalLineCount rules (2 + enabledOthers others o.write.link o.write.link.agentBId) ≤
      maxLinesTotal
  order : o.rulesB.isSome = true → o.rulesA.isSome = true

/-- One side at the moment of the write: the other links and the rules have not grown since they
were read, and the alias lines fit into what the estimate left. -/
structure SideFresh (w : World) (s : State) (o : LinkSession) (k : ℕ) (others : List Link)
    (rules : List Rule) :
    Prop where
  links_le : enabledOthers s.links.rows o.write.link k ≤ enabledOthers others o.write.link k
  rules_le : totalLineCount (s.agents k).rules 1 ≤ totalLineCount rules 1
  aliases : totalAliasLines (filterInput w (o.write.apply s.links).rows k (s.agents k).ingressMode)
    (s.agents k).rules ≤ maxLinesTotal - totalLineCount rules
      (2 + enabledOthers others o.write.link k)

structure LinkFresh (w : World) (s : State) (o : LinkSession) : Prop where
  same : o.write.SameSides s.links
  sideA : o.write.link.enabled = true → ∀ others rules, o.others = some others →
    o.rulesA = some rules →
    SideFresh w s o o.write.link.agentAId others rules
  sideB : o.write.link.enabled = true → ∀ others rules, o.others = some others →
    o.rulesB = some rules →
    SideFresh w s o o.write.link.agentBId others rules

/-- A rule request at its commit: no direct link was added since it counted them, and the alias
lines fit into what its estimate left. -/
structure RulesFresh (w : World) (s : State) (k : ℕ) (p : Pending) : Prop where
  links_le : ifaceCountOf s.links.rows k ≤ p.ifaces
  aliases : totalAliasLines (filterInput w s.links.rows k p.next.ingressMode) p.next.rules ≤
    maxLinesTotal - totalLineCount p.next.rules p.ifaces

/-- The writes whose check still says something about what they write. -/
def Fresh (w : World) (s : State) : Act → Prop
  | .commit k => ∀ p, s.locked k = some p → p.request.canGrow = true → RulesFresh w s k p
  | .writeLink i => ∀ o, s.sessions i = some o → LinkFresh w s o
  | _ => True

/-! The invariant. -/

/-- The caps of one agent. -/
def AgentFits (w : World) (s : State) (k : ℕ) : Prop :=
  WithinCaps (filterInput w s.links.rows k (s.agents k).ingressMode) (s.agents k).rules

structure Inv (w : World) (s : State) : Prop where
  fits : ∀ k, AgentFits w s k
  locked : ∀ k p, s.locked k = some p → serve p.ifaces p.now (s.agents k) p.request = .ok p.next
  sessions : ∀ i o, s.sessions i = some o → SessionOk o

theorem commit_fits {p : Pending} (hp : serve p.ifaces p.now (s.agents k) p.request = .ok p.next)
    (hfits : AgentFits w s k) (hfresh : p.request.canGrow = true → RulesFresh w s k p) :
    WithinCaps (filterInput w s.links.rows k p.next.ingressMode) p.next.rules where
  stored := serve_stored hp hfits.stored
  few := serve_few hp hfits.few
  fits := by
    cases hg : p.request.canGrow with
    | true =>
      have hestimate := serve_estimate hp hg
      have hlinks : totalLineCount p.next.rules (ifaceCountOf s.links.rows k) ≤
          totalLineCount p.next.rules p.ifaces := totalLineCount_mono (hfresh hg).links_le
      have haliases := (hfresh hg).aliases
      rw [filterLines, length_ifaces_filterInput]
      omega
    | false =>
      -- the mode does not change the number of lines
      have hmode : filterLines (filterInput w s.links.rows k p.next.ingressMode)
        (s.agents k).rules ≤
          filterLines (filterInput w s.links.rows k (s.agents k).ingressMode) (s.agents k).rules :=
        filterLines_links_mono (List.Sublist.refl _)
      exact Nat.le_trans (serve_shrinks hp hg) (Nat.le_trans hmode hfits.fits)

theorem write_fits_side {o : LinkSession} {others : List Link} {rules : List Rule}
    (hread : totalLineCount rules (2 + enabledOthers others o.write.link k) ≤ maxLinesTotal)
    (hfresh : SideFresh w s o k others rules) :
    filterLines (filterInput w (o.write.apply s.links).rows k (s.agents k).ingressMode)
      (s.agents k).rules ≤
      maxLinesTotal := by
  have hlinks := hfresh.links_le
  have hcount : totalLineCount (s.agents k).rules (ifaceCountOf (o.write.apply s.links).rows k) ≤
      totalLineCount rules (2 + enabledOthers others o.write.link k) := by
    have hmono : ifaceCountOf (o.write.apply s.links).rows k ≤ 2 + enabledOthers others o.write.link
        k :=
      Nat.le_trans write_count (Nat.add_le_add_left hlinks 2)
    rw [totalLineCount_mul, totalLineCount_mul (n := 2 + enabledOthers others o.write.link k)]
    exact Nat.mul_le_mul hfresh.rules_le (by omega)
  have haliases := hfresh.aliases
  rw [filterLines, length_ifaces_filterInput]
  omega

theorem write_fits {o : LinkSession} (ho : SessionOk o)
    (hread : o.write.link.enabled = true → o.rulesB.isSome = true) (hfits : AgentFits w s k)
    (hfresh : LinkFresh w s o) :
    filterLines (filterInput w (o.write.apply s.links).rows k (s.agents k).ingressMode)
      (s.agents k).rules ≤
      maxLinesTotal := by
  cases hserves : o.write.link.serves k with
  | false =>
    exact Nat.le_trans (filterLines_links_mono (write_sublist hfresh.same hserves)) hfits.fits
  | true =>
    simp only [Link.serves, Bool.and_eq_true, Bool.or_eq_true, beq_iff_eq] at hserves
    obtain ⟨hen, hside⟩ := hserves
    have hB := hread hen
    have hA := ho.order hB
    rcases hside with rfl | rfl
    · obtain ⟨rules, hrules⟩ := Option.isSome_iff_exists.mp hA
      obtain ⟨others, hos, hread⟩ := ho.sideA rules hrules
      exact write_fits_side hread (hfresh.sideA hen others rules hos hrules)
    · obtain ⟨rules, hrules⟩ := Option.isSome_iff_exists.mp hB
      obtain ⟨others, hos, hread⟩ := ho.sideB rules hrules
      exact write_fits_side hread (hfresh.sideB hen others rules hos hrules)

theorem inv_step {act : Act} (h : SessionStep w s act t) (hfresh : Fresh w s act) (hs : Inv w s) :
    Inv w t := by
  have hagent (k : ℕ) (a : Agent)
    (ha : WithinCaps (filterInput w s.links.rows k a.ingressMode) a.rules) :
      ∀ j, AgentFits w (s.setAgent k a) j := by
    intro j
    by_cases hj : j = k
    · subst hj
      simpa [AgentFits, State.setAgent] using ha
    · simpa [AgentFits, State.setAgent, Function.update_of_ne hj] using hs.fits j
  have hsession (i : ℕ) (o : Option LinkSession) (ho : ∀ o' ∈ o, SessionOk o') :
      ∀ j o', Function.update s.sessions i o j = some o' → SessionOk o' := by
    intro j o' hj
    by_cases hij : j = i
    · subst hij
      exact ho o' (by simpa using hj)
    · exact hs.sessions j o' (by simpa [Function.update_of_ne hij] using hj)
  have hlock (k : ℕ) : ∀ j p, Function.update s.locked k none j = some p →
      j ≠ k ∧ s.locked j = some p := by
    intro j p hp
    by_cases hj : j = k
    · simp [hj] at hp
    · exact ⟨hj, by simpa [Function.update_of_ne hj] using hp⟩
  cases h with
  | @begin k now r next hfree hserve =>
    refine ⟨hs.fits, fun j p hp => ?_, hs.sessions⟩
    by_cases hj : j = k
    · subst hj
      obtain rfl : _ = p := by simpa [State.setLock] using hp
      exact hserve
    · exact hs.locked j p (by simpa [State.setLock, Function.update_of_ne hj] using hp)
  | @commit k p hp =>
    refine ⟨hagent k p.next (commit_fits (hs.locked k p hp) (hs.fits k) (hfresh p hp)),
      fun j q hq => ?_, hs.sessions⟩
    obtain ⟨hj, hq⟩ := hlock k j q hq
    simpa [State.setLock, State.setAgent, Function.update_of_ne hj] using hs.locked j q hq
  | @rollback k => exact ⟨hs.fits, fun j q hq => hs.locked j q (hlock k j q hq).2, hs.sessions⟩
  | @elsewhere k hfree =>
    refine ⟨hagent k _ ⟨(hs.fits k).stored, (hs.fits k).few, (hs.fits k).fits⟩, fun j q hq => ?_,
      hs.sessions⟩
    have hj : j ≠ k := fun hj => by simp [State.setAgent, hj, hfree] at hq
    simpa [State.setAgent, Function.update_of_ne hj] using hs.locked j q hq
  | create hfree hdiff =>
    refine ⟨hs.fits, hs.locked, hsession _ _ ?_⟩
    rintro o ⟨⟩
    exact ⟨nofun, nofun, nofun⟩
  | update hfree hmem hdiff =>
    refine ⟨hs.fits, hs.locked, hsession _ _ ?_⟩
    rintro o ⟨⟩
    exact ⟨nofun, nofun, nofun⟩
  | readOthers ho hnone hctx hcheck =>
    refine ⟨hs.fits, hs.locked, hsession _ _ ?_⟩
    rintro o' ⟨⟩
    have hok := hs.sessions _ _ ho
    refine ⟨fun rules hrules => ?_, fun rules hrules => ?_, hok.order⟩
    · obtain ⟨others, hos, -⟩ := hok.sideA rules hrules
      simp [hnone] at hos
    · obtain ⟨others, hos, -⟩ := hok.sideB rules hrules
      simp [hnone] at hos
  | @readRulesA i o others ho hos hnone hcheck =>
    refine ⟨hs.fits, hs.locked, hsession _ _ ?_⟩
    rintro o' ⟨⟩
    have hok := hs.sessions _ _ ho
    refine ⟨?_, hok.sideB, fun _ => rfl⟩
    rintro rules ⟨⟩
    exact ⟨others, hos, assertTotalLineCount_eq_ok.mp hcheck⟩
  | @readRulesB i o others ho hos hA hnone hcheck =>
    refine ⟨hs.fits, hs.locked, hsession _ _ ?_⟩
    rintro o' ⟨⟩
    have hok := hs.sessions _ _ ho
    refine ⟨hok.sideA, ?_, fun _ => hA⟩
    rintro rules ⟨⟩
    exact ⟨others, hos, assertTotalLineCount_eq_ok.mp hcheck⟩
  | @writeLink i o ho hothers hread =>
    have hnone : ∀ o' ∈ (none : Option LinkSession), SessionOk o' :=
      fun o' h' => absurd h' (Option.not_mem_none o')
    constructor
    · intro k
      rw [AgentFits, State.links_setLinks, State.agents_setLinks, State.agents_setSession]
      exact ⟨(hs.fits k).stored, (hs.fits k).few,
        write_fits (hs.sessions i o ho) hread (hs.fits k) (hfresh o ho)⟩
    · rw [State.locked_setLinks, State.agents_setLinks]
      exact hs.locked
    · rw [State.sessions_setLinks]
      exact hsession i none hnone
  | @dropLink id =>
    constructor
    · intro k
      rw [AgentFits, State.links_setLinks, State.agents_setLinks]
      have hfewer : filterLines (filterInput w (s.links.delete id).rows k (s.agents k).ingressMode)
        (s.agents k).rules ≤
          filterLines (filterInput w s.links.rows k (s.agents k).ingressMode) (s.agents k).rules :=
        filterLines_links_mono (List.filter_sublist.filter _)
      exact ⟨(hs.fits k).stored, (hs.fits k).few, Nat.le_trans hfewer (hs.fits k).fits⟩
    · rw [State.locked_setLinks, State.agents_setLinks]
      exact hs.locked
    · rw [State.sessions_setLinks]
      exact hs.sessions

/-- As long as no write rests on a check that what it read has outgrown, and alias lines stay within
what the estimates leave, no filter exceeds a cap, and a restricted agent is always sent one. -/
theorem payload_built {acts : List Act} (h : Run (Guarded (SessionStep w) (Fresh w)) s acts t)
    (hfits : ∀ k, AgentFits w s k) (hlocked : ∀ k, s.locked k = none)
    (hsessions : ∀ i, s.sessions i = none)
    (k : ℕ) :
    payloadFor w t k ≠ .error .tooManyRules ∧ payloadFor w t k ≠ .error .tooManyLines ∧
      ((t.agents k).ingressMode = .restricted →
        (∀ l ∈ t.links.rows, l.serves k = true → l.id ≤ maxDirectLinkId) →
        ∃ out, payloadFor w t k = .ok (some out)) := by
  have hstart : Inv w s :=
    ⟨hfits, fun k p hp => by simp [hlocked] at hp, fun i o ho => by simp [hsessions] at ho⟩
  have hinv : Inv w t := h.guarded_invariant (fun _ _ _ => inv_step) hstart
  have hid : ∀ r ∈ (t.agents k).rules, 1 ≤ r.id := fun r hr => ((t.agents k).table.ids r hr).1
  obtain ⟨hrules, hlines⟩ := no_size_error (hinv.fits k) hid
  refine ⟨hrules, hlines, fun hmode hlinks => ⟨_, buildIngressRestore_of_buildable ?_⟩⟩
  refine buildable_of_withinCaps (hinv.fits k) hid ?_ (isWgIface_ifaceOf _)
    (valid_directIfaces hlinks)
  rintro ⟨hopen, -⟩
  exact nomatch hmode.symm.trans hopen

/-! Two agents and one direct link. -/

def sampleWorld : World where
  wgInterface := fun _ => "wg0"
  hubAddress := fun k => if k = 1 then some "10.10.0.1" else if k = 2 then some "10.10.0.2"
    else none

def sampleLink : Link where
  id := 0
  name := "Berlin-Hamburg"
  agentAId := 1
  agentBId := 2
  listenPort := 51821
  endpointHost := "vpn.example.org"
  tunnelSubnet := ⟨"10.255.0.0/30", .around 0x0aff0000#32 30 subnet_len_le, by decide, rfl⟩
  mtu := none
  enabled := true
  natA := false
  natB := false

def sampleContext : MeshContext where
  agents := fun k => if k = 1 then some ⟨some "Berlin", .open_⟩ else some ⟨some "Hamburg", .open_⟩
  siteLinkIdOf := fun a => a.wgLinkName
  isolated := fun _ _ => false
  siteNets := ["192.168.1.0/24", "192.168.2.0/24"]
  agentTunnelSubnets := ["10.10.0.0/24"]
  others := []

/-- No rules, no links, nothing under way, but for the agents given. -/
def freshState (agents : ℕ → Agent) : State := ⟨agents, fun _ => none, .empty, fun _ => none⟩

/-- The requests of a direct link that is created while nothing else happens. -/
def createLinkActs : List Act :=
  [.openLink 0 (.create sampleLink), .readOthers 0 sampleContext, .readRulesA 0, .readRulesB 0,
    .writeLink 0]

/-- What the session holds when it writes. -/
def readSession (agents : ℕ → Agent) : LinkSession :=
  ⟨.create sampleLink, some [], some (agents 1).rules, some (agents 2).rules⟩

def linkedState (agents : ℕ → Agent) : State :=
  { freshState agents with links := (LinkWrite.create sampleLink).apply .empty }

/-- The link is created when both agents' rules pass the size check. -/
theorem createLink_run {agents : ℕ → Agent} {ok : State → Act → Prop}
    (hA : totalLineCount (agents 1).rules 2 ≤ maxLinesTotal)
    (hB : totalLineCount (agents 2).rules 2 ≤ maxLinesTotal)
    (hok : ∀ u, ∀ act ∈ createLinkActs, act ≠ .writeLink 0 → ok u act)
    (hwrite : ok ((freshState agents).setSession 0 (some (readSession agents))) (.writeLink 0)) :
    Run (Guarded (SessionStep sampleWorld) ok) (freshState agents) createLinkActs
      (linkedState agents) := by
  have hset (o o' : Option LinkSession) :
      ((freshState agents).setSession 0 o).setSession 0 o' = (freshState agents).setSession 0
        o' := by
    simp [State.setSession]
  have hat (o : Option LinkSession) : ((freshState agents).setSession 0 o).sessions 0 = o := by
    simp [State.setSession]
  have hopen : SessionStep sampleWorld (freshState agents) (.openLink 0 (.create sampleLink))
      ((freshState agents).setSession 0 (some ⟨.create sampleLink, none, none, none⟩)) :=
        .create rfl (by decide)
  have hfits : assertDirectLinkFits (LinkWrite.create sampleLink).link sampleContext = .ok () := by
    decide +kernel
  have hothers : SessionStep sampleWorld _ (.readOthers 0 sampleContext) _ :=
    .readOthers (hat (some ⟨.create sampleLink, none, none, none⟩)) rfl rfl hfits
  rw [hset] at hothers
  have hreadA := SessionStep.readRulesA (w := sampleWorld)
    (hat (some ⟨.create sampleLink, some [], none, none⟩))
      rfl rfl (assertTotalLineCount_eq_ok.mpr hA)
  rw [hset] at hreadA
  have hreadB := SessionStep.readRulesB (w := sampleWorld)
    (hat (some ⟨.create sampleLink, some [], some (agents 1).rules, none⟩)) rfl rfl rfl
    (assertTotalLineCount_eq_ok.mpr hB)
  rw [hset] at hreadB
  have hwritten := SessionStep.writeLink (w := sampleWorld) (hat (some (readSession agents)))
    rfl fun _ => rfl
  have hend : (((freshState agents).setSession 0 (some (readSession agents))).setSession 0
    none).setLinks
      ((readSession agents).write.apply
        ((freshState agents).setSession 0 (some (readSession agents))).links) =
      linkedState agents := by
    rw [hset]
    simp [State.setSession, State.setLinks, freshState, linkedState, readSession]
  rw [hend] at hwritten
  refine .cons ⟨hopen, hok _ _ ?_ nofun⟩
    (.cons ⟨hothers, hok _ _ ?_ nofun⟩ (.cons ⟨hreadA, hok _ _ ?_ nofun⟩
    (.cons ⟨hreadB, hok _ _ ?_ nofun⟩ (.cons ⟨hwritten, hwrite⟩ (.nil _))))) <;>
      simp [createLinkActs]

/-! Seven Freigaben of 256 lines whose sources cover the partner's hub address. -/

def sampleSources : List String :=
  ["10.10.0.2/32", "10.10.0.2/31", "10.10.0.0/30", "10.10.0.0/29", "10.10.0.0/28", "10.10.0.0/27",
    "10.10.0.0/26"]

def sampleDestinations : List String := (List.range 16).map fun j => "192.168.1." ++ decimal j

def samplePorts : List Port := (List.range 16).map fun j => ⟨"tcp", decimal (8000 + j)⟩

def sampleBulk : JsonList RulePayload := .array (sampleSources.map fun src =>
  ⟨.value "Web", .value (.array [src]), .value (.array sampleDestinations),
    .value (.array (samplePorts.map Port.entry)), .undefined, .undefined⟩)

def sampleBulkRules : List Rule := sampleSources.zipIdx.map fun e =>
  ⟨e.2 + 1, "Web", [e.1], sampleDestinations.map (· ++ "/32"), samplePorts, true, none, some 9⟩

theorem serve_setMode {text : String} {m : IngressMode} (hm : sanitizeIngressMode text = .ok m)
    (hen : m = .restricted → ∃ r ∈ a.rules, r.enabled = true)
    (htotal : totalLineCount a.rules n ≤ maxLinesTotal) :
    serve n now a (.setMode text) = .ok { a with ingressMode := m } := by
  rw [serve, setMode, hm]
  exact unit_bind_eq_ok.mpr ⟨assertNotEmptyRestricted_eq_ok.mpr hen,
    unit_bind_eq_ok.mpr ⟨mapError_eq_ok.mpr (assertTotalLineCount_eq_ok.mpr htotal), rfl⟩⟩

/-- A rule request that nothing interrupts. -/
theorem request_run (hfree : s.locked k = none)
    (hserve : serve (ifaceCountOf s.links.rows k) now (s.agents k) req = .ok b) :
    Run (SessionStep w) s [.begin k now req, .commit k] (s.setAgent k b) := by
  have hend : ((s.setLock k (some ⟨req, ifaceCountOf s.links.rows k, now, b⟩)).setAgent k b).setLock
    k none =
      s.setAgent k b := by
    have hlock : Function.update s.locked k none = s.locked := by
      rw [← hfree, Function.update_eq_self]
    simp only [State.setLock, State.setAgent, Function.update_idem, hlock]
  have hcommit : SessionStep w (s.setLock k (some ⟨req, ifaceCountOf s.links.rows k, now, b⟩))
      (.commit k) _ :=
    .commit (p := ⟨req, ifaceCountOf s.links.rows k, now, b⟩) (by simp [State.setLock])
  rw [hend] at hcommit
  exact .cons (.begin hfree hserve) (.single hcommit)

/-- Each request passes its own check (3584 lines are estimated), and the filter has 5376 lines. -/
theorem payload_missing : ∃ t, Run (SessionStep sampleWorld) (freshState fun _ => ⟨.open_, .empty⟩)
    (createLinkActs ++ ([.begin 1 9 (.createBulk sampleBulk), .commit 1] ++
      [.begin 1 9 (.setMode "restricted"), .commit 1])) t ∧
    (t.agents 1).ingressMode = .restricted ∧ payloadFor sampleWorld t 1 = .error .tooManyLines := by
  have hlink : Run (Guarded (SessionStep sampleWorld) fun _ _ => True)
    (freshState fun _ => ⟨.open_, .empty⟩)
      createLinkActs (linkedState fun _ => ⟨.open_, .empty⟩) :=
    createLink_run (by decide) (by decide) (fun _ _ _ _ => trivial) trivial
  have hbulk : (serve 2 9 ⟨.open_, .empty⟩ (.createBulk sampleBulk)).map
    (fun b => (b.rules, b.ingressMode)) =
      .ok (sampleBulkRules, .open_) := by decide +kernel
  obtain ⟨b, hb, hbr⟩ := map_eq_ok.mp hbulk
  obtain ⟨hrules, -⟩ := Prod.mk.inj hbr
  have hmode : serve 2 9 b (.setMode "restricted") = .ok { b with ingressMode := .restricted } := by
    have hestimate : totalLineCount sampleBulkRules 2 ≤ maxLinesTotal := by decide +kernel
    refine serve_setMode rfl (fun _ => ?_) (by rw [hrules]; exact hestimate)
    rw [hrules]
    exact ⟨_, List.mem_cons_self, rfl⟩
  have hfirst := request_run (w := sampleWorld) (s := linkedState fun _ => ⟨.open_, .empty⟩) (k :=
    1) rfl hb
  have hagent : ((linkedState fun _ => ⟨.open_, .empty⟩).setAgent 1 b).agents 1 = b := by
    simp [State.setAgent]
  have hsecond :=
    request_run (w := sampleWorld) (s := (linkedState fun _ => ⟨.open_, .empty⟩).setAgent 1 b) (k :=
      1)
    rfl (hagent.symm ▸ hmode)
  refine ⟨_, hlink.of_guarded.append (hfirst.append hsecond), by simp [State.setAgent], ?_⟩
  have hstored : ∀ r ∈ sampleBulkRules, Stored r := hrules ▸ serve_stored hb nofun
  have hpayload : buildIngressRestore (filterInput sampleWorld
      ((linkedState fun _ => ⟨.open_, .empty⟩).links.rows) 1 .restricted) sampleBulkRules =
        .error .tooManyLines :=
    tooManyLines hstored (by decide +kernel) (by decide +kernel) rfl (isWgIface_ifaceOf "wg0")
      (by decide +kernel)
      (by decide +kernel)
  rw [← hrules] at hpayload
  rw [payloadFor, State.links_setAgent, State.links_setAgent]
  simp only [State.setAgent, Function.update_self]
  exact hpayload

/-- Agent 1 of the sample, restricted to one Freigabe for the partner. -/
def restrictedAgents (k : ℕ) : Agent :=
  if k = 1 then
    { ingressMode := .restricted
      table :=
        { rows := [⟨1, "Web", ["10.10.0.2/32"], [], [⟨"tcp", "443"⟩], true, none, some 5⟩]
          nextId := 2
          sorted := List.pairwise_singleton _ _
          ids := by decide
          pos := Nat.two_pos } }
  else ⟨.open_, .empty⟩

theorem stored_sample :
    Stored ⟨1, "Web", ["10.10.0.2/32"], [], [⟨"tcp", "443"⟩], true, none, some 5⟩ := by
  have hclean : sanitizeIngressRule ⟨.value "Web", .value (.array ["10.10.0.2"]), .undefined,
      .value (.array [⟨some "tcp", some "443"⟩]), .undefined, .undefined⟩ false =
      .ok ⟨some "Web", some ["10.10.0.2/32"], some [], some [⟨"tcp", "443"⟩], some true,
        some none⟩ := rfl
  exact stored_row 1 5 hclean

theorem payload_built_sample :
    ∃ out, payloadFor sampleWorld (linkedState restrictedAgents) 1 = .ok (some out) := by
  have hfits : ∀ k, AgentFits sampleWorld (freshState restrictedAgents) k := by
    intro k
    by_cases hk : k = 1
    · subst hk
      refine ⟨fun r hr => ?_, by decide, by decide +kernel⟩
      exact List.mem_singleton.mp hr ▸ stored_sample
    · have hagent : restrictedAgents k = ⟨.open_, .empty⟩ := if_neg hk
      change WithinCaps (filterInput sampleWorld [] k (restrictedAgents k).ingressMode)
        (restrictedAgents k).rules
      rw [hagent]
      exact ⟨nofun, Nat.zero_le _,
        by simp [filterLines, totalLineCount, totalAliasLines, Agent.rules, Rows.empty]⟩
  have hwrite : Fresh sampleWorld
    ((freshState restrictedAgents).setSession 0 (some (readSession restrictedAgents)))
      (.writeLink 0) := by
    intro o ho
    obtain rfl : readSession restrictedAgents = o := by simpa [State.setSession] using ho
    refine ⟨trivial, fun _ others rules hothers hrules => ?_, fun _ others rules hothers hrules =>
      ?_⟩
    · obtain rfl : [] = others := Option.some.inj hothers
      obtain rfl : (restrictedAgents 1).rules = rules := Option.some.inj hrules
      exact ⟨by decide, by decide, by decide +kernel⟩
    · obtain rfl : [] = others := Option.some.inj hothers
      obtain rfl : (restrictedAgents 2).rules = rules := Option.some.inj hrules
      exact ⟨by decide, by decide, by decide +kernel⟩
  have hrun : Run (Guarded (SessionStep sampleWorld) (Fresh sampleWorld))
    (freshState restrictedAgents)
      createLinkActs (linkedState restrictedAgents) := by
    refine createLink_run (by decide) (by decide) (fun u act hmem hact => ?_) hwrite
    simp only [createLinkActs, List.mem_cons, List.not_mem_nil, or_false] at hmem
    rcases hmem with rfl | rfl | rfl | rfl | rfl
    · trivial
    · trivial
    · trivial
    · trivial
    · exact absurd rfl hact
  exact (payload_built hrun hfits (fun _ => rfl) (fun _ => rfl) 1).2.2 rfl (by decide)

end FloppyGuard.Ingress
