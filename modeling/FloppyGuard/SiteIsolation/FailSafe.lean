import FloppyGuard.SiteIsolation.LinkLoader
import FloppyGuard.SiteIsolation.ScriptText

/-! What a fading live status, with restarts in between, does to the loaded table:
the condition under which no drop is lifted, and a run that lifts one. -/
namespace FloppyGuard.SiteIsolation

variable {rt : Runtime} {path : String} {pairs : List Pair} {metadata : MetadataStore}
  {full s : Status}
  {base : List Link} {b b' : Backend} {t : Trigger} {id : String} {m : MetaLink} {w : World}
    {raw : Input}
  {sc : Script} {x y : Ip}

/-- The status shows every link of the metadata store. -/
def FullView (metadata : MetadataStore) (full : Status) : Prop :=
  ∀ id ∈ metadata.keys, (full.record id).isSome = true

instance : Decidable (FullView metadata full) :=
  inferInstanceAs (Decidable (∀ id ∈ metadata.keys, (full.record id).isSome = true))

/-- A later status shows a link as the full one did, or does not show it. -/
def Fades (full s : Status) : Prop := ∀ id, s.record id = none ∨ s.record id = full.record id

inductive BackendEvent
  | apply (t : Trigger)
  | restart

/-- The backend while only the live status fades: pairs and metadata stay. -/
inductive BackendStep (rt : Runtime) (path : String) (pairs : List Pair) (metadata : MetadataStore)
    (full : Status) : Backend → BackendEvent → Backend → Prop
  | apply (b : Backend) (t : Trigger) (hf : Fades full t.status) :
      BackendStep rt path pairs metadata full b (.apply t) (b.apply rt path pairs metadata t).2
  | restart (b : Backend) : BackendStep rt path pairs metadata full b .restart b.restart

/-- The link a metadata entry gives without any live view. -/
def metadataAlone (id : String) (m : MetaLink) : Link :=
  metadataLink (fun _ => none) .unavailable id m

/-- An apply still knows the networks a link had: it sees the link, has its live
view cached, finds all of them in the metadata, or misses the link for the first time. -/
inductive StillKnown (metadata : MetadataStore) (base : List Link) (b : Backend) (s : Status)
    (id : String) :
    Prop
  | seen (h : (s.record id).isSome = true)
  | cached (hk : id ∈ metadata.keys) (h : (b.cache id).isSome = true)
  | stored (m : MetaLink) (hm : (id, m) ∈ metadata.links)
      (h : ∀ x, covers (siteNets base id) x = true →
        covers (siteNets [metadataAlone id m] id) x = true)
  | held (hk : id ∉ metadata.keys) (hl : (b.world.mem.lastLinks id).isSome = true)
      (hs : b.world.mem.missingStreak id = 0)

/-- The links the plan of an apply is made from. -/
def viewed (pairs : List Pair) (metadata : MetadataStore) (b : Backend) (s : Status) : List Link :=
  (usedInput b.world ⟨pairs, (loadLinks metadata b.cache s).1⟩).links

/-- The apply ends before the table: input or `nft` fails, or the links are unresolved. -/
def Refused (rt : Runtime) (pairs : List Pair) (metadata : MetadataStore) (b : Backend)
    (t : Trigger) : Prop :=
  t.read.isSome = true ∨ t.faults.nft.isSome = true ∨
    linksUnresolved ⟨pairs, viewed pairs metadata b t.status⟩
      (planOf rt ⟨pairs, viewed pairs metadata b t.status⟩) = true

/-- The condition under which an apply lifts nothing. -/
def Safe (rt : Runtime) (pairs : List Pair) (metadata : MetadataStore) (base : List Link)
    (b : Backend) :
    BackendEvent → Prop
  | .restart => True
  | .apply t => Refused rt pairs metadata b t ∨
      ∀ id, Separating base pairs id → StillKnown metadata base b t.status id

theorem siteNets_eq_of_byId {links links' : List Link} (h : byId links id = byId links' id) :
    siteNets links id = siteNets links' id := by
  rw [siteNets, h, siteNets]

/-- Only type, networks and tunnel addresses of a link count. -/
theorem siteNets_congr {links links' : List Link} {l l' : Link} (h : byId links id = some l)
    (h' : byId links' id = some l') (ht : l.type = l'.type)
    (hn : l.importedNetworks = l'.importedNetworks) (ha : l.tunnelAddresses = l'.tunnelAddresses) :
    siteNets links id = siteNets links' id := by
  have hsite : isSiteLink l = isSiteLink l' := by simp only [isSiteLink, ht]
  have hnets : siteNetworks l = siteNetworks l' := by simp only [siteNetworks, netEntries, hn, ha]
  simp only [siteNets, h, h', hsite, hnets]

theorem byId_singleton {l : Link} (h : l.id = id) : byId [l] id = some l := by
  simp [byId, h]

theorem byId_id {links : List Link} {l : Link} (h : byId links id = some l) : l.id = id := by
  simpa using List.find?_some h

theorem byId_append (xs ys : List Link) (id : String) :
    byId (xs ++ ys) id = (byId ys id).or (byId xs id) := by
  simp [byId, List.find?_append]

theorem byId_eq_none_of_present {links : List Link} (h : present links id = false) :
    byId links id = none := by
  refine byId_eq_none fun k hk hid => ?_
  have : present links id = true := List.any_eq_true.mpr ⟨k, hk, by simp [hid]⟩
  simp [h] at this

/-- The remembered links carry their own ids. -/
def Labelled (w : World) : Prop := ∀ id l, w.mem.lastLinks id = some l → l.id = id

theorem heldLink_eq_some {links : List Link} {l : Link} (h : heldLink w.mem links id = some l) :
    w.mem.lastLinks id = some l ∧ present links id = false := by
  unfold heldLink at h
  split at h
  · cases h
  · split at h
    · exact ⟨h, by simp_all⟩
    · cases h

theorem byId_heldLinks (hl : Labelled w) : byId (heldLinks w.mem raw) id =
    if id ∈ pairIds raw.pairs then heldLink w.mem raw.links id else none := by
  have hmem (k : Link) (hk : k ∈ heldLinks w.mem raw) (hid : k.id = id) :
      id ∈ pairIds raw.pairs ∧ heldLink w.mem raw.links id = some k := by
    obtain ⟨id', hid', hk⟩ := List.mem_filterMap.mp hk
    obtain rfl : id' = id := (hl id' k (heldLink_eq_some hk).1).symm.trans hid
    exact ⟨hid', hk⟩
  split
  · rename_i hid
    cases hh : heldLink w.mem raw.links id with
    | none =>
      refine byId_eq_none fun k hk hkid => ?_
      simp [hh] at hmem
      exact hmem k hk hkid
    | some l =>
      have hlab : l.id = id := hl id l (heldLink_eq_some hh).1
      refine byId_eq_some (List.mem_filterMap.mpr ⟨id, hid, hh⟩) hlab fun k hk hkid => ?_
      exact Option.some.inj ((hmem k hk hkid).2.symm.trans hh)
  · rename_i hid
    exact byId_eq_none fun k hk hkid => hid (hmem k hk hkid).1

/-- A link that is there is taken from the input. -/
theorem byId_usedInput_present (hl : Labelled w) (h : present raw.links id = true) :
    byId (usedInput w raw).links id = byId raw.links id := by
  have hheld : byId (heldLinks w.mem raw) id = none := by
    rw [byId_heldLinks hl, heldLink, if_pos h, ite_self]
  rw [usedInput, withHeldLinks, byId_append, hheld, Option.none_or]

/-- A missing link is taken from the held ones. -/
theorem byId_usedInput_missing (hl : Labelled w) (hid : id ∈ pairIds raw.pairs)
    (h : present raw.links id = false) (hs : w.mem.missingStreak id = 0) :
    byId (usedInput w raw).links id = w.mem.lastLinks id := by
  have hheld : byId (heldLinks w.mem raw) id = w.mem.lastLinks id := by
    rw [byId_heldLinks hl, if_pos hid, heldLink, h, hs]
    rfl
  rw [usedInput, withHeldLinks, byId_append, hheld, byId_eq_none_of_present h, Option.or_none]

theorem Separating.mem_pairIds (h : Separating base pairs id) : id ∈ pairIds pairs := by
  obtain ⟨p, hp, -, hid⟩ := h
  rw [pairIds, List.mem_eraseDups, List.mem_flatMap]
  exact ⟨p, hp, by simpa using hid⟩

/-- What holds of the backend as long as only safe applies ran. -/
structure Kept (pairs : List Pair) (metadata : MetadataStore) (full : Status) (base : List Link)
    (sc : Script) (b : Backend) : Prop where
  kernel : ∃ sc', b.world.kernel = some sc' ∧ ∀ x y, drops sc x y = true → drops sc' x y = true
  cache : ∀ id ∈ metadata.keys, ∀ v, b.cache id = some v → ∃ l, full.record id = some l ∧ v = l.view
  labelled : Labelled b.world
  last : ∀ id l, Separating base pairs id → b.world.mem.lastLinks id = some l →
    ∀ x, covers (siteNets base id) x = true → covers (siteNets [l] id) x = true

theorem present_stored (hm : (id, m) ∈ metadata.links) :
    present (loadLinks metadata b.cache s).1 id = true :=
  present_loadLinks.mpr (Or.inl (List.mem_map_of_mem hm))

theorem byId_viewed_stored (hl : Labelled b.world) (hm : (id, m) ∈ metadata.links) :
    byId (viewed pairs metadata b s) id = some (metadataLink b.cache s id m) := by
  rw [viewed, byId_usedInput_present hl (present_stored hm), byId_loadLinks_stored hm]

theorem byId_viewed_live {l : LiveLink} (hl : Labelled b.world) (hk : id ∉ metadata.keys)
    (hr : s.record id = some l) : byId (viewed pairs metadata b s) id = some (liveLink l) := by
  have hp : present (loadLinks metadata b.cache s).1 id = true :=
    present_loadLinks.mpr (Or.inr (by simp [hr]))
  rw [viewed, byId_usedInput_present hl hp, byId_loadLinks_live hk, hr]
  rfl

/-- Of the live status only the view of the link matters for its networks. -/
theorem siteNets_metadataLink {links links' : List Link} {cache cache' : LiveCache} {s' : Status}
    (h : byId links id = some (metadataLink cache s id m))
    (h' : byId links' id = some (metadataLink cache' s' id m))
    (hv : liveOf cache s id = liveOf cache' s' id) :
    siteNets links id = siteNets links' id := by
  apply siteNets_congr h h' <;> simp only [metadataLink, hv]

theorem exists_metadata (h : id ∈ metadata.keys) : ∃ m, (id, m) ∈ metadata.links := by
  obtain ⟨e, he, rfl⟩ := List.mem_map.mp h
  exact ⟨e.2, he⟩

theorem liveOf_of_record {cache : LiveCache} {l : LiveLink} (h : s.record id = some l) :
    liveOf cache s id = l.view := by
  simp [liveOf, h]

theorem liveOf_of_none {cache : LiveCache} (h : s.record id = none) :
    liveOf cache s id = (cache id).getD .blank := by
  simp [liveOf, h]

section Step
variable {b₀ : Backend} (hl₀ : Labelled b₀.world)
include hl₀

/-- A link the status shows has the networks it had under the full view. -/
theorem siteNets_seen (hf : Fades full s) (hl : Labelled b.world)
    (h : (s.record id).isSome = true) :
    siteNets (viewed pairs metadata b s) id = siteNets (viewed pairs metadata b₀ full) id := by
  obtain ⟨l, hr⟩ := Option.isSome_iff_exists.mp h
  have hr₀ : full.record id = some l := by
    rcases hf id with hn | he
    · simp [hn] at hr
    · rw [← he, hr]
  by_cases hk : id ∈ metadata.keys
  · obtain ⟨m, hm⟩ := exists_metadata hk
    apply siteNets_metadataLink (byId_viewed_stored hl hm) (byId_viewed_stored hl₀ hm)
    rw [liveOf_of_record hr, liveOf_of_record hr₀]
  · apply siteNets_eq_of_byId
    rw [byId_viewed_live hl hk hr, byId_viewed_live hl₀ hk hr₀]

/-- So has a stored link whose live view is cached. -/
theorem siteNets_cached (hk : Kept pairs metadata full base sc b) (hm : (id, m) ∈ metadata.links)
    (hn : s.record id = none) (h : (b.cache id).isSome = true) :
    siteNets (viewed pairs metadata b s) id = siteNets (viewed pairs metadata b₀ full) id := by
  obtain ⟨v, hv⟩ := Option.isSome_iff_exists.mp h
  obtain ⟨l, hr₀, rfl⟩ := hk.cache id (List.mem_map_of_mem hm) v hv
  apply siteNets_metadataLink (byId_viewed_stored hk.labelled hm) (byId_viewed_stored hl₀ hm)
  rw [liveOf_of_none hn, hv, liveOf_of_record hr₀]
  rfl

theorem covers_viewed (hf : Fades full s) (hbase : base = viewed pairs metadata b₀ full)
    (hk : Kept pairs metadata full base sc b) (hsep : Separating base pairs id)
    (hs : StillKnown metadata base b s id) (hx : covers (siteNets base id) x = true) :
    covers (siteNets (viewed pairs metadata b s) id) x = true := by
  cases hr : s.record id with
  | some l => rwa [siteNets_seen hl₀ hf hk.labelled (by simp [hr]), ← hbase]
  | none =>
    cases hs with
    | seen h => simp [hr] at h
    | cached hkey hc =>
      obtain ⟨m, hm⟩ := exists_metadata hkey
      rwa [siteNets_cached hl₀ hk hm hr hc, ← hbase]
    | stored m hm halone =>
      cases hc : b.cache id with
      | some v => rwa [siteNets_cached hl₀ hk hm hr (by simp [hc]), ← hbase]
      | none =>
        have hsame : siteNets (viewed pairs metadata b s) id = siteNets [metadataAlone id m]
            id := by
          apply siteNets_metadataLink (byId_viewed_stored hk.labelled hm) (byId_singleton rfl)
          rw [liveOf_of_none hr, hc, liveOf_of_none rfl]
        rw [hsame]
        exact halone x hx
    | held hkey hlast hstreak =>
      obtain ⟨l, hlast⟩ := Option.isSome_iff_exists.mp hlast
      have hmiss : present (loadLinks metadata b.cache s).1 id = false := by
        rw [Bool.eq_false_iff]
        intro hp
        rcases present_loadLinks.mp hp with h | h
        · exact hkey h
        · simp [hr] at h
      have hby : byId (viewed pairs metadata b s) id = some l := by
        rw [viewed, byId_usedInput_missing hk.labelled hsep.mem_pairIds hmiss hstreak, hlast]
      rw [siteNets_eq_of_byId (hby.trans (byId_singleton (hk.labelled id l hlast)).symm)]
      exact hk.last id l hsep hlast x hx

end Step

/-- An apply leaves the table and the remembered links, or loads the script of its input. -/
theorem applyOnce_table (rt : Runtime) (path : String) (ev : Apply) (w : World) :
    ((applyOnce rt path ev w).2.kernel = w.kernel ∧
        (applyOnce rt path ev w).2.mem.lastLinks = w.mem.lastLinks) ∨
      ∃ raw script, ev.input = .ok raw ∧ scriptOf rt (usedInput w raw) = .ok script ∧
        linksUnresolved (usedInput w raw) (planOf rt (usedInput w raw)) = false ∧
        ev.faults.nft = none ∧
        (applyOnce rt path ev w).2.kernel = some script ∧
        (applyOnce rt path ev w).2.mem.lastLinks = fun id =>
          if ((planOf rt (usedInput w raw)).site? id).isSome then byId (usedInput w raw).links id
          else none := by
  have ho := applyOnce_outcome rt path ev w
  generalize applyOnce rt path ev w = r at ho ⊢
  cases ho with
  | unreadable e hin => exact Or.inl ⟨rfl, rfl⟩
  | unresolved raw hin hu => exact Or.inl ⟨rfl, rfl⟩
  | kept raw script hin hsc hu hup =>
    left
    unfold keepTable
    cases hp : w.mem.persisted <;> simp [prepared, hp]
  | loading raw script hin hsc hu =>
    unfold loadTable
    cases hf : ev.faults.nft with
    | some e => exact Or.inl ⟨rfl, rfl⟩
    | none => exact Or.inr ⟨raw, script, hin, hsc, hu, rfl, by simp, by simp⟩

theorem kept_step {b₀ : Backend} {e : BackendEvent} (hl₀ : Labelled b₀.world)
    (hbase : base = viewed pairs metadata b₀ full)
    (hsc : buildSiteIsolationNft rt pairs base = .ok sc)
    (hs : BackendStep rt path pairs metadata full b e b') (hsafe : Safe rt pairs metadata base b e)
    (hk : Kept pairs metadata full base sc b) : Kept pairs metadata full base sc b' := by
  cases hs with
  | restart => exact ⟨hk.kernel, nofun, nofun, nofun⟩
  | apply t hf =>
    have hcache : ∀ id ∈ metadata.keys, ∀ v,
      (b.apply rt path pairs metadata t).2.cache id = some v →
        ∃ l, full.record id = some l ∧ v = l.view := by
      intro id hid v hv
      simp only [Backend.apply, loadLinks] at hv
      split at hv
      · unfold remember at hv
        split at hv
        · rename_i l hr
          rcases hf id with hn | he
          · simp [hn] at hr
          · exact ⟨l, he ▸ hr, (Option.some.inj hv).symm⟩
        · exact hk.cache id hid v hv
      · exact hk.cache id hid v hv
    rcases applyOnce_table rt path (b.toApply pairs metadata t) b.world with
      ⟨hker, hlast⟩ | ⟨raw, script, hin, hscr, hu, hnft, hker, hlast⟩
    · refine ⟨?_, hcache, ?_, ?_⟩
      · obtain ⟨sc', hk', hd⟩ := hk.kernel
        exact ⟨sc', hker.trans hk', hd⟩
      · intro id l hl
        exact hk.labelled id l (hlast ▸ hl)
      · intro id l hsep hl
        exact hk.last id l hsep (hlast ▸ hl)
    · have hread : t.read = none := by
        cases hr : t.read with
        | none => rfl
        | some e => simp [Backend.toApply, Backend.input, hr] at hin
      obtain rfl : (⟨pairs, (loadLinks metadata b.cache t.status).1⟩ : Input) = raw := by
        simpa [Backend.toApply, Backend.input, hread] using hin
      have hknown : ∀ id, Separating base pairs id → StillKnown metadata base b t.status id := by
        rcases hsafe with (h | h | h) | h
        · simp [hread] at h
        · simp [Backend.toApply] at hnft
          simp [hnft] at h
        · exact absurd (hu.symm.trans h) (by simp)
        · exact h
      have hcov : ∀ id, Separating base pairs id → ∀ x, covers (siteNets base id) x = true →
          covers (siteNets (viewed pairs metadata b t.status) id) x = true :=
        fun id hsep x hx => covers_viewed hl₀ hf hbase hk hsep (hknown id hsep) hx
      refine ⟨⟨script, hker, fun x y => drops_mono hsc hscr hcov⟩, hcache, ?_, ?_⟩
      · intro id l hl
        have hl := (congrFun hlast id).symm.trans hl
        split at hl
        · exact byId_id hl
        · cases hl
      · intro id l hsep hl x hx
        have hl := (congrFun hlast id).symm.trans hl
        split at hl
        · rw [← siteNets_eq_of_byId (hl.trans (byId_singleton (byId_id hl)).symm)]
          exact hcov id hsep x hx
        · cases hl

theorem kept_run {b₀ : Backend} {events : List BackendEvent} (hl₀ : Labelled b₀.world)
    (hbase : base = viewed pairs metadata b₀ full)
    (hsc : buildSiteIsolationNft rt pairs base = .ok sc)
    (hr : Run (Guarded (BackendStep rt path pairs metadata full) (Safe rt pairs metadata base)) b
      events b')
    (hk : Kept pairs metadata full base sc b) : Kept pairs metadata full base sc b' :=
  hr.guarded_invariant (fun _ _ _ => kept_step hl₀ hbase hsc) hk

theorem site_nets {links : List Link} {A : Site}
    (hA : A ∈ (planSiteIsolation rt pairs links).sites) :
    A.nets = siteNets links A.id := by
  obtain ⟨l, hl, he⟩ := (planned_plan rt pairs links).sites A hA
  obtain ⟨l', hl', -, hnets⟩ := exists_link_of_siteNets (separating_of_site hA).siteNets_ne_nil
  obtain rfl := Option.some.inj (hl.symm.trans hl')
  rw [hnets, he]
  rfl

/-- The links remembered with a script have the networks any input of the same script has. -/
theorem covers_lastLink {input : Input} {l : Link} (hd : SetNamesDistinct rt input.links)
    (hold : scriptOf rt input = .ok sc) (hsc : buildSiteIsolationNft rt pairs base = .ok sc)
    (hsite : ((planOf rt input).site? id).isSome = true) (hl : byId input.links id = some l)
    (hsep : Separating base pairs id) (hx : covers (siteNets base id) x = true) :
    covers (siteNets [l] id) x = true := by
  have hel : covers (elementsOf sc (siteSetName rt id)) x = true :=
    (covers_elementsOf_iff hsc).mpr ⟨id, hsep, rfl, hx⟩
  obtain ⟨A, hA⟩ := Option.isSome_iff_exists.mp hsite
  have hid : A.id = id := by simpa using List.find?_some hA
  rw [covers_elementsOf hold hd hA, site_nets (List.mem_of_find?_eq_some hA), hid] at hel
  rwa [siteNets_eq_of_byId (hl.trans (byId_singleton (byId_id hl)).symm)] at hel

theorem Coherent.labelled (h : Coherent rt w) : Labelled w := by
  intro id l hl
  obtain ⟨input, -, -, hby⟩ := h.last id l hl
  exact byId_id hby

theorem exists_of_loadedScript {loads : List Input} (h : loadedScript rt loads = some sc) :
    ∃ input, loads.head? = some input ∧ scriptOf rt input = .ok sc := by
  obtain ⟨input, hin, hsc⟩ := Option.bind_eq_some_iff.mp h
  refine ⟨input, hin, ?_⟩
  cases he : scriptOf rt input with
  | error e => simp [he, Except.toOption] at hsc
  | ok script => simpa [he, Except.toOption] using hsc

/-- The set names of the input behind the table in the kernel are distinct. -/
def LoadedDistinct (rt : Runtime) (w : World) : Prop :=
  ∀ input, w.loads.head? = some input → SetNamesDistinct rt input.links

theorem kept_start (hc : Coherent rt b.world) (hx : HexDigests rt)
    (hfull : FullView metadata t.status)
    (hn : NoCollision rt b.world (.apply (b.toApply pairs metadata t)))
    (hok : (b.apply rt path pairs metadata t).1.ok = true)
    (hd : LoadedDistinct rt (b.apply rt path pairs metadata t).2.world) :
    ∃ sc, buildSiteIsolationNft rt pairs (viewed pairs metadata b t.status) = .ok sc ∧
      (b.apply rt path pairs metadata t).2.world.kernel = some sc ∧
      Kept pairs metadata t.status (viewed pairs metadata b t.status) sc
        (b.apply rt path pairs metadata t).2 := by
  obtain ⟨script, sc, ⟨raw, hin, hscr⟩, hscript, hkernel, htext⟩ := applyOnce_loaded hc hn hok
  have hread : t.read = none := by
    cases hr : t.read with
    | none => rfl
    | some e => simp [Backend.toApply, Backend.input, hr] at hin
  obtain rfl : (⟨pairs, (loadLinks metadata b.cache t.status).1⟩ : Input) = raw := by
    simpa [Backend.toApply, Backend.input, hread] using hin
  have hc' : Coherent rt (b.apply rt path pairs metadata t).2.world := coherent_applyOnce hc hn
  -- the table in the kernel may stem from an older input, but it is the script of this one
  obtain ⟨input, hhead, hbuilt⟩ := exists_of_loadedScript (hc'.source.symm.trans hscript)
  obtain rfl : sc = script := built_text_inj hx hbuilt hscr htext
  refine ⟨sc, hscr, hkernel, ⟨sc, hkernel, fun _ _ h => h⟩, ?_, hc'.labelled, ?_⟩
  · intro id hid v hv
    obtain ⟨l, hr⟩ := Option.isSome_iff_exists.mp (hfull id hid)
    simp only [Backend.apply, loadLinks, hread, Option.isNone_none, if_true, remember, hr] at hv
    exact ⟨l, hr, (Option.some.inj hv).symm⟩
  · intro id l hsep hl x hx
    obtain ⟨input', hhead', hsite, hby⟩ := hc'.last id l hl
    obtain rfl : input = input' := Option.some.inj (hhead.symm.trans hhead')
    exact covers_lastLink (hd input hhead) hbuilt hscr hsite hby hsep hx

/-- As long as every apply is safe, no apply of a fading status lifts a drop. -/
theorem separation_kept {kernel : Option Script} {boot : Option String} {earlier : List Event}
    {later : List BackendEvent}
    (hrun : Run (Guarded (Step rt path) (NoCollision rt)) (started kernel boot) earlier b.world)
    (hx : HexDigests rt) (hfull : FullView metadata t.status)
    (hn : NoCollision rt b.world (.apply (b.toApply pairs metadata t)))
    (hok : (b.apply rt path pairs metadata t).1.ok = true)
    (hd : LoadedDistinct rt (b.apply rt path pairs metadata t).2.world)
    (hlater : Run (Guarded (BackendStep rt path pairs metadata t.status)
      (Safe rt pairs metadata (viewed pairs metadata b t.status)))
      (b.apply rt path pairs metadata t).2 later b') :
    ∃ sc sc', (b.apply rt path pairs metadata t).2.world.kernel = some sc ∧
    b'.world.kernel = some sc' ∧
      ∀ x y, drops sc x y = true → drops sc' x y = true := by
  have hc : Coherent rt b.world := coherent_run hrun coherent_initial
  obtain ⟨sc, hsc, hkernel, hk⟩ := kept_start hc hx hfull hn hok hd
  obtain ⟨sc', hkernel', hdrops⟩ := (kept_run hc.labelled rfl hsc hlater hk).kernel
  exact ⟨sc, sc', hkernel, hkernel', hdrops⟩

/-- The sample links in a metadata store; the tunnel address is only in the live status. -/
def sampleMetadata : MetadataStore where
  links := [("wg0:berlin=", ⟨"Berlin", some .siteToSite, ["10.1.0.0/16"]⟩),
    ("wg0:hamburg=", ⟨"Hamburg", some .hubLink, ["10.2.0.7/24"]⟩)]
  nodup := by decide

def sampleStatus : Status := .available
  [⟨"wg0:berlin=", "Berlin", some .siteToSite, ["10.1.0.0/16"], ["10.8.0.2/32"], true⟩,
    ⟨"wg0:hamburg=", "Hamburg", some .hubLink, ["10.2.0.7/24"], [], true⟩]

def sampleTrigger (status : Status) : Trigger := ⟨false, none, status, .none, 0⟩

/-- The digests of the ids and of the two tables of the sample run. -/
def fadingRuntime : Runtime where
  sha256Hex s :=
    if s = "wg0:berlin=" then "a5e05788fb802d17a3eebc9ecd03607f434bf1cfb8d3e9bbb270339ffb6a976c"
    else if s = "wg0:hamburg=" then
      "1288342358bc54a3639a85eaca7edda53814cf41b6ee0dab3c1b7d36aa1ed2e9"
    else if s = sampleTable then "b55c0eaca9e0cb285a7486838cd679a595171925163c7b420d7736752670b5dc"
    else "8bb38ed103fa13f100d3cb7382604e241a21fef86c241fdf478307bdc12dab36"
  normalizeNfkd s := s

def freshBackend : Backend := ⟨fun _ => none, started none none⟩

def sampleBackend : Backend :=
  (freshBackend.apply fadingRuntime "sites.nft" samplePairs sampleMetadata
    (sampleTrigger sampleStatus)).2

/-- The status is gone when the backend comes back: Berlin's tunnel address leaves its set. -/
def restartedBackend : Backend :=
  (sampleBackend.restart.apply fadingRuntime "sites.nft" samplePairs sampleMetadata
    (sampleTrigger .unavailable)).2

theorem separation_lifted :
    (freshBackend.apply fadingRuntime "sites.nft" samplePairs sampleMetadata
      (sampleTrigger sampleStatus)).1.ok = true ∧
    FullView sampleMetadata sampleStatus ∧
    Run (BackendStep fadingRuntime "sites.nft" samplePairs sampleMetadata sampleStatus)
      sampleBackend
      [.restart, .apply (sampleTrigger .unavailable)] restartedBackend ∧
    sampleBackend.world.kernel.map (drops · 0x0a080002#32 0x0a020009#32) = some true ∧
    restartedBackend.world.kernel.map (drops · 0x0a080002#32 0x0a020009#32) = some false := by
  refine ⟨by decide +kernel, by decide +kernel, ?_, by decide +kernel, by decide +kernel⟩
  exact .cons (.restart _) (.single (.apply _ _ fun _ => Or.inl rfl))

theorem fadingRuntime_hex : HexDigests fadingRuntime := by
  intro text
  unfold fadingRuntime
  dsimp only
  split
  · decide +kernel
  · split
    · decide +kernel
    · split <;> decide +kernel

theorem setNamesDistinct_of_nodup {links : List Link}
    (h : ((links.map (·.id)).map (siteSetName rt)).Nodup) : SetNamesDistinct rt links := by
  rintro _ ⟨l, hl, rfl⟩ _ ⟨k, hk, rfl⟩ he
  exact List.inj_on_of_nodup_map h (List.mem_map_of_mem hl) (List.mem_map_of_mem hk) he

theorem sampleBackend_distinct : LoadedDistinct fadingRuntime sampleBackend.world := by
  intro input hin
  have hids : sampleBackend.world.loads.head?.map (fun i => i.links.map (·.id)) =
      some ["wg0:berlin=", "wg0:hamburg="] := by decide +kernel
  rw [hin] at hids
  have hids : input.links.map (·.id) = ["wg0:berlin=", "wg0:hamburg="] := Option.some.inj hids
  apply setNamesDistinct_of_nodup
  rw [hids]
  decide

/-- The status fails while the backend runs: both links are cached, and the table stays. -/
theorem separation_kept_sample :
    let b' :=
  (sampleBackend.apply fadingRuntime "sites.nft" samplePairs sampleMetadata
    (sampleTrigger .failed)).2
    ∃ sc sc', sampleBackend.world.kernel = some sc ∧ b'.world.kernel = some sc' ∧
      ∀ x y, drops sc x y = true → drops sc' x y = true := by
  intro b'
  have hrun : Run (Guarded (Step fadingRuntime "sites.nft") (NoCollision fadingRuntime))
    (started none none)
      [] freshBackend.world := .nil _
  have hknown (id : String)
    (hid : Separating (viewed samplePairs sampleMetadata freshBackend sampleStatus)
      samplePairs id) :
      StillKnown sampleMetadata (viewed samplePairs sampleMetadata freshBackend sampleStatus)
        sampleBackend
        .failed id := by
    obtain ⟨p, hp, -, hid⟩ := hid
    obtain rfl := List.mem_singleton.mp hp
    rcases hid with rfl | rfl <;> exact .cached (by decide) (by decide +kernel)
  exact separation_kept hrun fadingRuntime_hex (by decide +kernel) (fun _ _ _ _ _ h => nomatch h)
    (by decide +kernel) sampleBackend_distinct
      (.single ⟨.apply _ _ fun _ => Or.inl rfl, Or.inr hknown⟩)

end FloppyGuard.SiteIsolation
