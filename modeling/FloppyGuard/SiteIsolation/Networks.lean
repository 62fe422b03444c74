import FloppyGuard.SiteIsolation.Rules
import FloppyGuard.Lib.Maximal

/-! What `siteNetworks` makes of the entries of a link. -/
namespace FloppyGuard.SiteIsolation

variable {l l' : Link} {c m n o : Cidr} {v : String} {xs ys : List Cidr} {x : Ip}

/-- An entry of the link counts: a network of it other than the default route, or a tunnel address.
-/
def Accepted (l : Link) (c : Cidr) : Prop :=
  (∃ v ∈ l.importedNetworks, canonicalCidr v = some c ∧ c.len ≠ 0) ∨
    ∃ v ∈ l.tunnelAddresses,
      canonicalCidr (if v.toList.contains '/' then v else v ++ "/32") = some c ∧ c.len = 32

/-- A text with a colon is no IPv4 network. -/
theorem colon_not_mem (h : canonicalCidr v = some c) : ':' ∉ v.toList := by
  intro hv
  exact absurd (mem_of_canonicalCidr h (Text.mem_trim_of_mem hv (by decide))) (by decide)

/-! Entry by entry. -/

theorem importedEntry_inl : importedEntry v = .inl c ↔ canonicalCidr v = some c ∧ c.len ≠ 0 := by
  unfold importedEntry
  split
  · next hcolon => simpa using fun h => absurd (by simpa using hcolon) (colon_not_mem h)
  · cases canonicalCidr v with
    | none => simp
    | some d =>
      by_cases hlen : d.len = 0
      · simp only [hlen, if_true]
        constructor
        · nofun
        · rintro ⟨hd, hne⟩
          exact absurd (Option.some.inj hd ▸ hlen) hne
      · simp only [hlen, if_false, Sum.inl.injEq, Option.some.injEq]
        exact ⟨fun h => ⟨h, h ▸ hlen⟩, And.left⟩

theorem tunnelEntry_inl : tunnelEntry v = some (.inl c) ↔
    canonicalCidr (if v.toList.contains '/' then v else v ++ "/32") = some c ∧ c.len = 32 := by
  unfold tunnelEntry
  cases canonicalCidr (if v.toList.contains '/' then v else v ++ "/32") with
  | none =>
    dsimp only
    split <;> simp
  | some d =>
    by_cases hlen : d.len = 32
    · simp only [hlen, if_true, Option.some.injEq, Sum.inl.injEq]
      exact ⟨fun h => ⟨h, h ▸ hlen⟩, And.left⟩
    · simp only [hlen, if_false, Option.some.injEq]
      constructor
      · nofun
      · rintro ⟨rfl, h⟩
        exact absurd h hlen

def accepted (l : Link) : List Cidr := (netEntries l).filterMap Sum.getLeft?

theorem mem_accepted : c ∈ accepted l ↔ Accepted l c := by
  have hleft (e : Cidr ⊕ Skipped) : e.getLeft? = some c ↔ e = .inl c := by
    cases e <;> simp
  simp only [accepted, netEntries, List.mem_filterMap, List.mem_append, List.mem_map, hleft,
    Accepted]
  constructor
  · rintro ⟨e, ⟨v, hv, he⟩ | ⟨v, hv, he⟩, rfl⟩
    · exact Or.inl ⟨v, hv, importedEntry_inl.mp he⟩
    · exact Or.inr ⟨v, hv, tunnelEntry_inl.mp he⟩
  · rintro (⟨v, hv, h⟩ | ⟨v, hv, h⟩)
    · exact ⟨_, Or.inl ⟨v, hv, importedEntry_inl.mpr h⟩, rfl⟩
    · exact ⟨_, Or.inr ⟨v, hv, tunnelEntry_inl.mpr h⟩, rfl⟩

/-! The blocks that stay. -/

theorem len_lt_of_contains (h : o.Contains n) (hne : o ≠ n) : o.len < n.len := by
  refine lt_of_le_of_ne h.1 fun hlen => hne (h.antisymm ?_)
  exact PrefixBlock.contains_of_mem n.base_mem (h.mem n.base_mem) hlen.ge

theorem exists_outermost (h : n ∈ xs) : ∃ o ∈ outermost xs, o.Contains n :=
  Maximal.exists_above PrefixBlock.len PrefixBlock.contains_refl
    (fun _ _ _ => PrefixBlock.Contains.trans)
    (fun _ _ => len_lt_of_contains) h

theorem mem_nets :
    n ∈ (siteNetworks l).nets ↔ n ∈ maximal PrefixBlock.Contains (accepted l).eraseDups :=
  List.mem_insertionSort _

theorem accepted_of_mem_nets (h : n ∈ (siteNetworks l).nets) : Accepted l n :=
  mem_accepted.mp (List.mem_eraseDups.mp (Maximal.mem_iff.mp (mem_nets.mp h)).1)

theorem exists_net (h : Accepted l c) : ∃ n ∈ (siteNetworks l).nets, n.Contains c := by
  obtain ⟨n, hn, hc⟩ := exists_outermost (List.mem_eraseDups.mpr (mem_accepted.mpr h))
  exact ⟨n, mem_nets.mpr hn, hc⟩

theorem disjoint_of_ne (hm : m ∈ (siteNetworks l).nets) (hn : n ∈ (siteNetworks l).nets)
    (hne : m ≠ n) : ¬ (x ∈ m ∧ x ∈ n) := by
  obtain ⟨hm, hmaxm⟩ := Maximal.mem_iff.mp (mem_nets.mp hm)
  obtain ⟨hn, hmaxn⟩ := Maximal.mem_iff.mp (mem_nets.mp hn)
  rintro ⟨hxm, hxn⟩
  rcases PrefixBlock.overlaps_of_mem hxm hxn with h | h
  · exact hne (hmaxn m hm h)
  · exact hne (hmaxm n hn h).symm

theorem netLe_iff :
    netLe m n ↔ m.base.toNat < n.base.toNat ∨ m.base.toNat = n.base.toNat ∧ m.len ≤ n.len := by
  rw [netLe, BitVec.lt_def, BitVec.toNat_inj]

instance : Std.Total netLe where
  total m n := by
    rw [netLe_iff, netLe_iff]
    omega

instance : IsTrans Cidr netLe where
  trans m n o := by
    rw [netLe_iff, netLe_iff, netLe_iff]
    omega

theorem nodup_eraseDups (xs : List Cidr) : xs.eraseDups.Nodup := by
  match xs with
  | [] => exact List.nodup_nil
  | c :: xs =>
    rw [List.eraseDups_cons, List.nodup_cons]
    refine ⟨fun h => ?_, nodup_eraseDups _⟩
    simpa using (List.mem_filter.mp (List.mem_eraseDups.mp h)).2
termination_by xs.length
decreasing_by exact Nat.lt_succ_of_le (List.length_filter_le _ _)

theorem nodup_nets (l : Link) : (siteNetworks l).nets.Nodup :=
  (List.perm_insertionSort _ _).nodup_iff.mpr (Maximal.nodup (nodup_eraseDups _))

theorem nets_disjoint (l : Link) :
    (siteNetworks l).nets.Pairwise fun m n => ∀ x, ¬ (x ∈ m ∧ x ∈ n) :=
  (nodup_nets l).pairwise_of_forall_ne fun _ hm _ hn hne _ => disjoint_of_ne hm hn hne

/-- Two of the networks never start at one address, so the order is strict. -/
theorem nets_ascending (l : Link) : (siteNetworks l).nets.Pairwise fun m n => m.base < n.base := by
  have hsorted : (siteNetworks l).nets.Pairwise netLe := List.pairwise_insertionSort netLe _
  refine (hsorted.and (nets_disjoint l)).imp ?_
  rintro m n ⟨hlt | ⟨hbase, -⟩, hdisj⟩
  · exact hlt
  · exact absurd ⟨m.base_mem, hbase ▸ n.base_mem⟩ (hdisj m.base)

theorem nets_union (l : Link) (x : Ip) :
    (∃ n ∈ (siteNetworks l).nets, x ∈ n) ↔ ∃ c, Accepted l c ∧ x ∈ c := by
  constructor
  · rintro ⟨n, hn, hx⟩
    exact ⟨n, accepted_of_mem_nets hn, hx⟩
  · rintro ⟨c, hc, hx⟩
    obtain ⟨n, hn, hnc⟩ := exists_net hc
    exact ⟨n, hn, hnc.mem hx⟩

/-! A link that lists the result. -/

theorem len_ne_zero (h : Accepted l c) : c.len ≠ 0 := by
  rcases h with ⟨-, -, -, h⟩ | ⟨-, -, -, h⟩
  · exact h
  · omega

/-- Strictly ascending lists with the same elements are the same. -/
theorem eq_of_ascending (hxs : xs.Pairwise fun m n => m.base < n.base)
    (hys : ys.Pairwise fun m n => m.base < n.base)
    (h : ∀ n, n ∈ xs ↔ n ∈ ys) : xs = ys := by
  have hnodup {zs : List Cidr} (hzs : zs.Pairwise fun m n => m.base < n.base) : zs.Nodup :=
    hzs.imp fun hlt he => absurd (he ▸ hlt) (BitVec.lt_irrefl _)
  refine ((List.perm_ext_iff_of_nodup (hnodup hxs) (hnodup hys)).mpr h).eq_of_pairwise ?_ hxs hys
  intro m n _ _ hmn hnm
  rw [BitVec.lt_def] at hmn hnm
  omega

/-- The networks of a link, listed in another with some of its tunnel addresses, are the networks of
that one. -/
theorem nets_again (himp : l'.importedNetworks = (siteNetworks l).nets.map Cidr.render)
    (htun : ∀ v ∈ l'.tunnelAddresses, v ∈ l.tunnelAddresses) :
    (siteNetworks l').nets = (siteNetworks l).nets := by
  have hin : ∀ c ∈ (siteNetworks l).nets, Accepted l' c := by
    intro c hc
    refine Or.inl ⟨c.render, himp ▸ List.mem_map_of_mem hc, canonicalCidr_render c, ?_⟩
    exact len_ne_zero (accepted_of_mem_nets hc)
  have hsub : ∀ c, Accepted l' c → Accepted l c := by
    rintro c (⟨v, hv, hc, -⟩ | ⟨v, hv, hc⟩)
    · obtain ⟨n, hn, rfl⟩ := List.mem_map.mp (himp ▸ hv)
      rw [canonicalCidr_render] at hc
      exact Option.some.inj hc ▸ accepted_of_mem_nets hn
    · exact Or.inr ⟨v, htun v hv, hc⟩
  refine eq_of_ascending (nets_ascending l') (nets_ascending l) fun n => ?_
  simp only [mem_nets] at hin ⊢
  refine Maximal.mem_congr (fun a ha => exists_outermost ha) ?_ ?_
  · exact fun a ha => List.mem_eraseDups.mpr (mem_accepted.mpr (hin a ha))
  · exact fun a ha =>
      List.mem_eraseDups.mpr
        (mem_accepted.mpr (hsub a (mem_accepted.mp (List.mem_eraseDups.mp ha))))

/-! Entries that do not count. -/

theorem mem_skipped {s : Skipped} : s ∈ (siteNetworks l).skipped ↔
    (∃ v ∈ l.importedNetworks, importedEntry v = .inr s) ∨ ∃ v ∈ l.tunnelAddresses,
    tunnelEntry v = some (.inr s) := by
  have hright (e : Cidr ⊕ Skipped) : e.getRight? = some s ↔ e = .inr s := by
    cases e <;> simp
  simp only [siteNetworks, netEntries, List.mem_filterMap, List.mem_append, List.mem_map, hright]
  constructor
  · rintro ⟨e, ⟨v, hv, he⟩ | ⟨v, hv, he⟩, rfl⟩
    · exact Or.inl ⟨v, hv, he⟩
    · exact Or.inr ⟨v, hv, he⟩
  · rintro (⟨v, hv, he⟩ | ⟨v, hv, he⟩)
    · exact ⟨_, Or.inl ⟨v, hv, he⟩, rfl⟩
    · exact ⟨_, Or.inr ⟨v, hv, he⟩, rfl⟩

/-- How an entry is reported: a default route in canonical form, anything else as it was written. -/
def reported (v : String) (s : Skipped) : Prop :=
  s.value = echoValue v ∨ ∃ c, canonicalCidr v = some c ∧ c.len = 0 ∧ s = ⟨c.render, .defaultRoute⟩

theorem importedEntry_cases (v : String) :
    (∃ c, importedEntry v = .inl c) ∨ ∃ s, importedEntry v = .inr s ∧ reported v s := by
  unfold importedEntry reported
  split
  · exact Or.inr ⟨_, rfl, Or.inl rfl⟩
  · cases canonicalCidr v with
    | none => exact Or.inr ⟨_, rfl, Or.inl rfl⟩
    | some c =>
      by_cases hlen : c.len = 0
      · exact Or.inr ⟨_, if_pos hlen, Or.inr ⟨c, rfl, hlen, rfl⟩⟩
      · exact Or.inl ⟨c, if_neg hlen⟩

theorem tunnelEntry_cases (hv : v ≠ "") :
    (∃ c, tunnelEntry v = some (.inl c)) ∨ tunnelEntry v = some (.inr ⟨echoValue v, .invalid⟩) := by
  unfold tunnelEntry
  cases canonicalCidr (if v.toList.contains '/' then v else v ++ "/32") with
  | none => exact Or.inr (if_neg hv)
  | some c =>
    by_cases hlen : c.len = 32
    · exact Or.inl ⟨c, if_pos hlen⟩
    · exact Or.inr (if_neg hlen)

theorem imported_reported (hv : v ∈ l.importedNetworks)
    (hc : ∀ c, canonicalCidr v = some c → c.len = 0) :
    ∃ s ∈ (siteNetworks l).skipped, reported v s := by
  rcases importedEntry_cases v with ⟨c, he⟩ | ⟨s, he, hs⟩
  · obtain ⟨hcanon, hlen⟩ := importedEntry_inl.mp he
    exact absurd (hc c hcanon) hlen
  · exact ⟨s, mem_skipped.mpr (Or.inl ⟨v, hv, he⟩), hs⟩

theorem tunnel_reported (hv : v ∈ l.tunnelAddresses) (hne : v ≠ "")
    (hc : ∀ c, canonicalCidr (if v.toList.contains '/' then v else v ++ "/32") = some c →
      c.len ≠ 32) :
    ⟨echoValue v, .invalid⟩ ∈ (siteNetworks l).skipped := by
  rcases tunnelEntry_cases hne with ⟨c, he⟩ | he
  · obtain ⟨hcanon, hlen⟩ := tunnelEntry_inl.mp he
    exact absurd hlen (hc c hcanon)
  · exact mem_skipped.mpr (Or.inr ⟨v, hv, he⟩)

/-- The set of a site: canonical blocks, apart and in order, that hold the addresses of the accepted
entries. -/
structure CoversExactly (l : Link) : Prop where
  canonical : ∀ n ∈ (siteNetworks l).nets, canonicalCidr n.render = some n
  disjoint : (siteNetworks l).nets.Pairwise fun m n => ∀ x, ¬ (x ∈ m ∧ x ∈ n)
  ascending : (siteNetworks l).nets.Pairwise fun m n => m.base < n.base
  union : ∀ x, (∃ n ∈ (siteNetworks l).nets, x ∈ n) ↔ ∃ c, Accepted l c ∧ x ∈ c
  imported : ∀ v ∈ l.importedNetworks, (∀ c, canonicalCidr v = some c → c.len = 0) →
    ∃ s ∈ (siteNetworks l).skipped, reported v s
  tunnel : ∀ v ∈ l.tunnelAddresses, v ≠ "" →
    (∀ c, canonicalCidr (if v.toList.contains '/' then v else v ++ "/32") = some c → c.len ≠ 32) →
    ⟨echoValue v, .invalid⟩ ∈ (siteNetworks l).skipped
  again : ∀ l' : Link, l'.importedNetworks = (siteNetworks l).nets.map Cidr.render →
    (∀ v ∈ l'.tunnelAddresses, v ∈ l.tunnelAddresses) →
      (siteNetworks l').nets = (siteNetworks l).nets

theorem siteNetworks_exact (l : Link) : CoversExactly l where
  canonical n _ := canonicalCidr_render n
  disjoint := nets_disjoint l
  ascending := nets_ascending l
  union := nets_union l
  imported _ := imported_reported
  tunnel _ := tunnel_reported
  again _ := nets_again

example :
    (siteNetworks ⟨"wg0:a", "A", some .siteToSite, ["10.1.2.9/24", "10.1.0.0/16", "0.0.0.0/0"],
      ["10.10.0.7"], true, true⟩).nets.map
    Cidr.render = ["10.1.0.0/16", "10.10.0.7/32"] := by decide

end FloppyGuard.SiteIsolation
