import FloppyGuard.WireGuard.PlanPreview

/-! What a metadata store holds that is only written through the sanitizers. -/
namespace FloppyGuard.WireGuard.Patch

open Text

/-- An entry that sanitized patches have made. -/
inductive Written (fields : List FieldSpec) : Entry → Prop
  | empty : Written fields .empty
  | patch {e : Entry} {input : Js} {s : Sanitized} : Written fields e →
      sanitizePatch fields input = .ok s →
    Written fields (mergeMetadataEntry e s)

def flagAt (entry : Entry) (field : String) : Bool := entry.get? field = some (.flag true)

/-- An entry as the link records and configs read it. -/
def linkEntry (e : Entry) : LinkEntry where
  name := textAt e "name"
  type := textAt e "type"
  importedNetworks := textsAt e "importedNetworks"
  exportedNetworks := (textsAt e "exportedNetworks").getD []
  remoteManagementMode := textAt e "remoteManagementMode"
  dns := (textsAt e "dns").getD []
  fullTunnel := flagAt e "fullTunnel"
  platform := textAt e "platform"

def linkEntries (links : Entries) : Table String LinkEntry :=
  links.filterMap fun _ e => some (linkEntry e)

def WrittenLinks (isIP : String → Bool) (links : Entries) : Prop :=
  ∀ id e, links.get? id = some e → Written (linkFields isIP) e

/-- A network as a store may hold it. -/
def StoredNet (net : String) : Prop := ∃ c : Cidr, net = c.render ∧ minNetworkPrefix ≤ c.len

def StoredDns (isIP : String → Bool) (d : String) : Prop :=
  trimmed d = d ∧ isValidDnsEntry isIP d = true

structure SafeEntry (isIP : String → Bool) (e : LinkEntry) : Prop where
  name : ∀ n ∈ e.name, ∀ c ∈ n.toList, isControlChar c = false
  exported : ∀ net ∈ e.exportedNetworks, StoredNet net
  imported : ∀ nets ∈ e.importedNetworks, ∀ net ∈ nets, StoredNet net
  dns : ∀ d ∈ e.dns, StoredDns isIP d

variable {isIP : String → Bool} {fields : List FieldSpec} {input : String → Option Js} {e : Entry}
  {s : Sanitized} {key net d : String}
  {v : Value} {xs : List String} {items : List Js} {f : Sanitizer}

/-! What a sanitizer returns is what the store holds. -/

theorem mem_sanitizeFields (h : sanitizeFields fields input = .ok s) :
    ∀ p ∈ s, ∃ f w, (p.1, f) ∈ fields ∧ f w = .ok p.2 := by
  induction fields generalizing s with
  | nil =>
    cases h
    intro p hp
    cases hp
  | cons field fields ih =>
    obtain ⟨key, f⟩ := field
    intro p hp
    rcases sanitizeFields_cons h with ⟨-, hrest⟩ | ⟨v, w, rest, -, hf, hrest, rfl⟩
    · obtain ⟨g, w, hg, hw⟩ := ih hrest p hp
      exact ⟨g, w, List.mem_cons_of_mem _ hg, hw⟩
    · rcases List.mem_cons.mp hp with rfl | hp
      · exact ⟨f, v, List.mem_cons_self, hf⟩
      · obtain ⟨g, w, hg, hw⟩ := ih hrest p hp
        exact ⟨g, w, List.mem_cons_of_mem _ hg, hw⟩

theorem mem_sanitizePatch {v : Js} (h : sanitizePatch fields v = .ok s) :
    ∀ p ∈ s, ∃ f w, (p.1, f) ∈ fields ∧ f w = .ok p.2 := by
  unfold sanitizePatch at h
  split at h
  · cases h
  · exact mem_sanitizeFields h
  · cases h
    intro p hp
    cases hp

/-- A field that a merge leaves is an old one or one of the patch. -/
theorem get?_merge (h : (mergeMetadataEntry e s).get? key = some v) :
    e.get? key = some v ∨ (key, some v) ∈ s := by
  induction s generalizing e with
  | nil => exact .inl h
  | cons field s ih =>
    rcases ih (e := applyField e field) h with hold | hnew
    · rw [get?_applyField] at hold
      split at hold
      · next hkey =>
        subst hkey
        rw [← hold]
        exact .inr List.mem_cons_self
      · exact .inl hold
    · exact .inr (List.mem_cons_of_mem _ hnew)

theorem Written.field (h : Written fields e) (hv : e.get? key = some v) :
    ∃ f w, (key, f) ∈ fields ∧ f w = .ok (some v) := by
  induction h with
  | empty => cases hv
  | patch _ hs ih =>
    rcases get?_merge hv with hold | hnew
    · exact ih hold
    · exact mem_sanitizePatch hs _ hnew

/-- Where the field names differ, the sanitizer of a field is the one in the list. -/
theorem Written.field_eq (h : Written fields e) (hn : (fields.map Prod.fst).Nodup)
    (hf : (key, f) ∈ fields)
    (hv : e.get? key = some v) : ∃ w, f w = .ok (some v) := by
  obtain ⟨g, w, hg, hw⟩ := h.field hv
  have he := List.inj_on_of_nodup_map hn hf hg rfl
  cases he
  exact ⟨w, hw⟩

theorem mem_sanitizeItems {g : Js → Except String (Option String)}
    (h : sanitizeItems g items = .ok xs) :
    ∀ x ∈ xs, ∃ item, g item = .ok (some x) := by
  obtain ⟨ys, hys, rfl⟩ := Checked.map_eq_ok.mp h
  intro x hx
  obtain ⟨y, hy, rfl⟩ := List.mem_filterMap.mp (List.mem_eraseDups.mp hx)
  obtain ⟨item, -, hitem⟩ := Checked.mem_of_mapM_eq_ok hys _ hy
  exact ⟨item, hitem⟩

theorem storedNet_of_item {item : Js} (h : networkItem item = .ok (some net)) : StoredNet net := by
  obtain ⟨raw, -, h⟩ := Checked.bind_eq_ok.mp h
  split at h
  · cases h
  · split at h
    · split at h
      · cases h
      · cases h
    · next c _ =>
      split at h
      · next hacceptable =>
        cases h
        exact ⟨c, rfl, (isAcceptableNetworkPrefix_render c).mp hacceptable⟩
      · cases h

theorem storedNets {v : Js} (h : sanitizeNetworkArray v = .ok xs) : ∀ net ∈ xs, StoredNet net := by
  unfold sanitizeNetworkArray at h
  split at h
  · intro net hnet
    obtain ⟨item, hitem⟩ := mem_sanitizeItems h net hnet
    exact storedNet_of_item hitem
  · cases h
    intro net hnet
    cases hnet

theorem storedDns_of_item {item : Js} (h : dnsItem isIP item = .ok (some d)) :
    StoredDns isIP d := by
  obtain ⟨t, ht, h⟩ := Checked.bind_eq_ok.mp h
  obtain ⟨raw, -, rfl⟩ := Checked.map_eq_ok.mp ht
  split at h
  · cases h
  · split at h
    · next hvalid =>
      cases h
      exact ⟨trimmed_trimmed raw, hvalid⟩
    · cases h

theorem storedDns {v : Js} (h : sanitizeDnsArray isIP v = .ok xs) : ∀ d ∈ xs, StoredDns isIP d := by
  unfold sanitizeDnsArray at h
  split at h
  · cases h
    intro d hd
    cases hd
  · cases h
    intro d hd
    cases hd
  · intro d hd
    obtain ⟨item, hitem⟩ := mem_sanitizeItems h d hd
    exact storedDns_of_item hitem
  · cases h

/-! Reading an entry. -/

theorem textsAt_eq_some (h : textsAt e key = some xs) : e.get? key = some (.texts xs) := by
  unfold textsAt at h
  split at h
  · next ys hget =>
    cases h
    exact hget
  · cases h

theorem textAt_eq_some {t : String} (h : textAt e key = some t) : e.get? key = some (.text t) := by
  unfold textAt at h
  split at h
  · cases h
  · next u _ hget =>
    cases h
    exact hget
  · cases h

theorem Written.list {g : Js → Except String (List String)} (h : Written fields e)
    (hn : (fields.map Prod.fst).Nodup)
    (hf : (key, listField g) ∈ fields) (hxs : textsAt e key = some xs) : ∃ w, g w = .ok xs := by
  obtain ⟨w, hw⟩ := h.field_eq hn hf (textsAt_eq_some hxs)
  obtain ⟨ys, hys, he⟩ := Checked.map_eq_ok.mp hw
  cases he
  exact ⟨w, hys⟩

theorem safeEntry_linkEntry (h : Written (linkFields isIP) e) : SafeEntry isIP (linkEntry e) := by
  have hn : ((linkFields isIP).map Prod.fst).Nodup := nodup_linkFields
  constructor
  · intro n hname c hc
    obtain ⟨w, hw⟩ := h.field_eq hn (.head _) (textAt_eq_some hname)
    obtain ⟨t, -, he⟩ := Checked.map_eq_ok.mp hw
    obtain ⟨u, hu, he⟩ := Option.map_eq_some_iff.mp he
    cases he
    obtain ⟨name, -, he⟩ := Option.bind_eq_some_iff.mp hu
    cases he
    rw [stripLinkNameControlChars, String.toList_ofList] at hc
    simpa using (List.mem_filter.mp hc).2
  · intro net hnet
    cases hxs : textsAt e "exportedNetworks" with
    | none =>
      rw [linkEntry, hxs] at hnet
      cases hnet
    | some xs =>
      rw [linkEntry, hxs] at hnet
      obtain ⟨w, hw⟩ := h.list hn (.tail _ (.tail _ (.head _))) hxs
      exact storedNets hw net hnet
  · intro xs hxs net hnet
    obtain ⟨w, hw⟩ := h.list hn (.tail _ (.tail _ (.tail _ (.head _)))) hxs
    exact storedNets hw net hnet
  · intro d hd
    cases hxs : textsAt e "dns" with
    | none =>
      rw [linkEntry, hxs] at hd
      cases hd
    | some xs =>
      rw [linkEntry, hxs] at hd
      obtain ⟨w, hw⟩ :=
        h.list hn
          (.tail _ (.tail _ (.tail _ (.tail _ (.tail _ (.tail _ (.tail _ (.tail _ (.head _)))))))))
            hxs
      exact storedDns hw d hd

theorem safeEntry_blank : SafeEntry isIP .blank := by
  constructor
  · intro n hn
    cases hn
  · intro net hnet
    cases hnet
  · intro nets hnets
    cases hnets
  · intro d hd
    cases hd

end FloppyGuard.WireGuard.Patch
