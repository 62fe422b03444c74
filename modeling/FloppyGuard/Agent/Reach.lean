import FloppyGuard.WireGuard.PeerUpdates

/-! `agent.js`: the networks of the other sites that an agent may route. -/
namespace FloppyGuard.AgentSync

open WireGuard

/-- `JSON.parse`: the texts of the entries when the column holds an array. -/
abbrev ParseArray := String → Option (List String)

/-- Reads `allowed_sites` and `allowed_networks`; unset means no restriction. -/
def parseAllowedSites (json : ParseArray) (raw : Option String) : Option (List String) :=
  match raw with
  | none | some "" => none
  | some raw =>
    match json raw with
    | none | some [] => none
    | some parsed =>
      -- entries that are all blank leave a restriction to nothing
      some (((parsed.map fun s => String.ofList (Text.trim s.toList)).filter (· ≠ "")).eraseDups)

structure MeshIndex where
  linksByName : Table String LinkMeta
  allSiteNets : List String
  ambiguousLinkNames : List String

/-- The stored names, one for each link that has one. -/
def linkNames (links : Table String LinkMeta) : List String :=
  links.values.filterMap fun l => l.name.filter (· ≠ "")

/-- `_meshIndex` -/
def meshIndex (links : Table String LinkMeta) : MeshIndex :=
  let ambiguous := (linkNames links).eraseDups.filter fun n => 1 < (linkNames links).count n
  { linksByName := links.values.foldl (fun byName l =>
      match l.name with
      | none | some "" => byName
      | some n => if n ∈ ambiguous then byName else byName.set n l) .empty
    allSiteNets := collectSiteNetworks links
    ambiguousLinkNames := ambiguous }

structure OtherSiteNets where
  nets : List String
  orphans : List String
  overlaps : List String
  supernets : List String

/-- The network lies inside a network of the agent itself. -/
def insideOwn (dropOverlaps : Bool) (ownNets : List String) (n : String) : Bool :=
  dropOverlaps && ownNets.any (cidrContains · n)

def coversOwn (dropOverlaps : Bool) (ownNets : List String) (n : String) : Bool :=
  dropOverlaps && !insideOwn dropOverlaps ownNets n && ownNets.any (cidrContains n ·)

/-- Some site of the whitelist exports the network. -/
def whitelisted (linksByName : Table String LinkMeta) (allowedSites : List String) (n : String) :
    Bool :=
  linksByName.values.any fun lm =>
    lm.type ≠ some "client" && lm.name.any (· ∈ allowedSites) && n ∈ lm.importedNetworks.getD []

/-- `_computeOtherSiteNets` -/
def computeOtherSiteNets (allowedNetworks allowedSites : Option (List String))
    (allSiteNets ownNets : List String)
    (linksByName : Table String LinkMeta) (dropOverlaps : Bool) : OtherSiteNets :=
  let split (nets orphans : List String) : OtherSiteNets :=
    { nets := nets.filter fun n => !insideOwn dropOverlaps ownNets n
      orphans
      overlaps := nets.filter (insideOwn dropOverlaps ownNets)
      supernets := nets.filter (coversOwn dropOverlaps ownNets) }
  match allowedNetworks with
  | some allowed =>
    split (allowed.filter fun n => n ∉ ownNets && n ∈ allSiteNets)
      (allowed.filter fun n => n ∉ ownNets && n ∉ allSiteNets)
  | none =>
    split (allSiteNets.filter fun n => n ∉ ownNets &&
      match allowedSites with
      | none => true
      | some allowedSites => whitelisted linksByName allowedSites n) []

/-- The columns of an agent its reach depends on. -/
structure Acl where
  allowedNetworks : Option String
  allowedSites : Option String

/-- `_agentOtherSiteNets` -/
def agentOtherSiteNets (json : ParseArray) (acl : Acl) (linkMeta : LinkMeta) (mesh : MeshIndex) :
    OtherSiteNets :=
  computeOtherSiteNets (parseAllowedSites json acl.allowedNetworks)
    (parseAllowedSites json acl.allowedSites)
    mesh.allSiteNets (linkMeta.importedNetworks.getD []).eraseDups mesh.linksByName
      (linkMeta.type ≠ some "client")

theorem mem_nets {allowedNetworks allowedSites : Option (List String)}
    {allSiteNets ownNets : List String}
    {linksByName : Table String LinkMeta} {dropOverlaps : Bool} {n : String} :
    n ∈ (computeOtherSiteNets allowedNetworks allowedSites allSiteNets ownNets linksByName
      dropOverlaps).nets ↔
      insideOwn dropOverlaps ownNets n = false ∧ n ∉ ownNets ∧ n ∈ allSiteNets ∧
        match allowedNetworks, allowedSites with
        | some allowed, _ => n ∈ allowed
        | none, some allowedSites => whitelisted linksByName allowedSites n = true
        | none, none => True := by
  cases allowedNetworks with
  | some allowed =>
    simp only [computeOtherSiteNets, List.mem_filter, Bool.not_eq_true', Bool.and_eq_true,
      decide_eq_true_eq]
    tauto
  | none =>
    cases allowedSites with
    | none =>
      simp only [computeOtherSiteNets, List.mem_filter, Bool.not_eq_true', Bool.and_eq_true,
        decide_eq_true_eq]
      tauto
    | some allowedSites =>
      simp only [computeOtherSiteNets, List.mem_filter, Bool.not_eq_true', Bool.and_eq_true,
        decide_eq_true_eq]
      tauto

/-! The index of the names. -/

variable {links : Table String LinkMeta} {n : String} {m : LinkMeta}

/-- The index as a fold over any list of entries. -/
def indexNames (ambiguous : List String) (entries : List LinkMeta) : Table String LinkMeta :=
  entries.foldl (fun byName l =>
    match l.name with
    | none | some "" => byName
    | some n => if n ∈ ambiguous then byName else byName.set n l) .empty

theorem indexNames_concat (ambiguous : List String) (entries : List LinkMeta) (l : LinkMeta) :
    indexNames ambiguous (entries ++ [l]) = match l.name with
      | none | some "" => indexNames ambiguous entries
      | some n =>
        if n ∈ ambiguous then indexNames ambiguous entries
        else (indexNames ambiguous entries).set n l := by
  rw [indexNames, List.foldl_append]
  rfl

theorem get?_indexNames {ambiguous : List String} {entries : List LinkMeta}
    (h : (indexNames ambiguous entries).get? n = some m) :
    m ∈ entries ∧ m.name = some n ∧ n ≠ "" ∧ n ∉ ambiguous := by
  induction entries using List.reverseRecOn with
  | nil => cases h
  | append_singleton entries l ih =>
    have hold (h : (indexNames ambiguous entries).get? n = some m) :
        m ∈ entries ++ [l] ∧ m.name = some n ∧ n ≠ "" ∧ n ∉ ambiguous :=
      (ih h).imp_left fun hm => List.mem_append_left _ hm
    rw [indexNames_concat] at h
    split at h
    · exact hold h
    · exact hold h
    · next k hne hk =>
      split at h
      · exact hold h
      · next hamb =>
        rw [Table.get?_set] at h
        split at h
        · next he =>
          subst he
          obtain rfl := Option.some.inj h
          exact ⟨List.mem_append_right _ (List.mem_singleton_self _), hk, hne, hamb⟩
        · exact hold h

theorem isSome_get?_indexNames {ambiguous : List String} {entries : List LinkMeta}
    (hm : m ∈ entries) (hname : m.name = some n)
    (hne : n ≠ "") (hamb : n ∉ ambiguous) :
    ((indexNames ambiguous entries).get? n).isSome = true := by
  induction entries using List.reverseRecOn with
  | nil => cases hm
  | append_singleton entries l ih =>
    rw [indexNames_concat]
    rcases List.mem_append.mp hm with hm | hm
    · split
      · exact ih hm
      · exact ih hm
      · split
        · exact ih hm
        · rw [Table.get?_set]
          split
          · rfl
          · exact ih hm
    · obtain rfl := List.mem_singleton.mp hm
      split
      · simp_all
      · simp_all
      · next k _ hk =>
        obtain rfl := Option.some.inj (hname.symm.trans hk)
        rw [if_neg hamb, Table.get?_set, if_pos rfl]
        rfl

theorem linksByName_eq :
    (meshIndex links).linksByName = indexNames (meshIndex links).ambiguousLinkNames links.values :=
  rfl

/-- A name that only one entry carries is not ambiguous. -/
theorem not_ambiguous {e : String × LinkMeta}
    (h : ∀ e' ∈ links.entries, e'.2.name = some n → e' = e) :
    n ∉ (meshIndex links).ambiguousLinkNames := by
  have hcount : (linkNames links).count n ≤ 1 := by
    rw [linkNames, Table.values, List.count_filterMap, List.countP_map,
      List.countP_eq_length_filter]
    have hnodup :
        (links.entries.filter ((fun a => (a.name.filter (· ≠ "")) == some n) ∘ Prod.snd)).Nodup :=
      (List.Nodup.of_map _ links.nodup).filter _
    have hall : ∀ e' ∈ links.entries.filter
        ((fun a => (a.name.filter (· ≠ "")) == some n) ∘ Prod.snd), e' = e := by
      intro e' he'
      obtain ⟨hmem, hname⟩ := List.mem_filter.mp he'
      refine h e' hmem ?_
      rw [Function.comp_apply, beq_iff_eq, Option.filter_eq_some_iff] at hname
      exact hname.1
    generalize links.entries.filter ((fun a => (a.name.filter (· ≠ "")) == some n) ∘ Prod.snd) =
      named at hnodup hall ⊢
    match named with
    | [] => simp
    | [_] => simp
    | a :: b :: rest =>
      have hab : a = b := (hall a (by simp)).trans (hall b (by simp)).symm
      simp [hab] at hnodup
  intro hn
  have := of_decide_eq_true (List.mem_filter.mp hn).2
  omega

/-- The index of a name that one entry carries. -/
theorem get?_linksByName {e : String × LinkMeta} (hn : n ≠ "") (he : e ∈ links.entries)
    (hname : e.2.name = some n)
    (h : ∀ e' ∈ links.entries, e'.2.name = some n → e' = e) :
    (meshIndex links).linksByName.get? n = some e.2 := by
  have hmem : e.2 ∈ links.values := List.mem_map_of_mem he
  obtain ⟨m, hm⟩ :=
    Option.isSome_iff_exists.mp (isSome_get?_indexNames hmem hname hn (not_ambiguous h))
  obtain ⟨hmem, hname, -⟩ := get?_indexNames hm
  obtain ⟨e', he', rfl⟩ := List.mem_map.mp hmem
  rw [linksByName_eq, hm, h e' he' hname]

end FloppyGuard.AgentSync
