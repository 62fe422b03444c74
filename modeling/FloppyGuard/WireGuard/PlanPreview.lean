import FloppyGuard.WireGuard.MetadataPatch

/-! `wireguard-plan.js`: the preview of a metadata patch, and the store its application writes. -/
namespace FloppyGuard.WireGuard.Patch

open Text

/-! Entries. -/

/-- A field of an entry, and its sanitizer. -/
abbrev FieldSpec := String × Sanitizer

abbrev Sanitized := List (String × Option Value)

def sanitizeFields : List FieldSpec → (String → Option Js) → Except String Sanitized
  | [], _ => .ok []
  | (key, f) :: fields, input =>
    match input key with
    | none => sanitizeFields fields input
    | some v => do
      let w ← f v
      let rest ← sanitizeFields fields input
      pure ((key, w) :: rest)

def sanitizePatch (fields : List FieldSpec) : Js → Except String Sanitized
  | .null => .error "Cannot convert undefined or null to object"
  | .object input => sanitizeFields fields input
  | _ => .ok []

section Fields

variable (isIP : String → Bool)

def interfaceFields : List FieldSpec :=
  [("role", textField normalizeInterfaceRole),
   ("managementMode", textField (oneOf managementModes)),
   ("exportedNetworks", listField sanitizeNetworkArray),
   ("importedNetworks", listField sanitizeNetworkArray),
   ("routeTargets", listField sanitizeNetworkArray),
   ("notes", listField sanitizeStringArray),
   ("dns", listField (sanitizeDnsArray isIP))]

def linkFields : List FieldSpec :=
  [("name", textField fun name => some (stripLinkNameControlChars name)),
   ("type", textField fun type => normalizeLinkType (some type)),
   ("exportedNetworks", listField sanitizeNetworkArray),
   ("importedNetworks", listField sanitizeNetworkArray),
   ("returnPathMode", textField (oneOf returnPathModes)),
   ("remoteManagementMode", textField (oneOf remoteManagementModes)),
   ("planIntent", textField some),
   ("planState", textField some),
   ("dns", listField (sanitizeDnsArray isIP)),
   ("fullTunnel", fullTunnel),
   ("platform", platform),
   ("notes", listField sanitizeStringArray)]

def sanitizeInterfaceMetadataPatch : Js → Except String Sanitized :=
  sanitizePatch (interfaceFields isIP)

def sanitizeLinkMetadataPatch : Js → Except String Sanitized := sanitizePatch (linkFields isIP)

end Fields

abbrev Entry := Table String Value

def applyField (entry : Entry) (field : String × Option Value) : Entry :=
  match field.2 with
  | some v => entry.set field.1 v
  | none => entry.erase field.1

def mergeMetadataEntry (current : Entry) (patch : Sanitized) : Entry :=
  patch.foldl applyField current

/-- A sanitized patch as the input of another sanitizing. -/
def asInput (patch : Sanitized) : Js := .object fun key => (patch.lookup key).map toJs

/-! The store. -/

abbrev Entries := Table String Entry

structure Store where
  interfaces : Entries
  links : Entries

def Entries.entry (entries : Entries) (id : String) : Entry := (entries.get? id).getD .empty

/-- The body of a request; the ids are the keys of an object. -/
structure PatchBody where
  interfaces : Table String Js
  links : Table String Js

structure NormalPatch where
  interfaces : List (String × Sanitized)
  links : List (String × Sanitized)

def normalizeEntries (sanitize : Js → Except String Sanitized) (patch : List (String × Js)) :
    Except String (List (String × Sanitized)) := do
  let all ← patch.mapM fun p => (sanitize p.2).map fun s => (p.1, s)
  pure (all.filter fun p => !p.2.isEmpty)

def patchEntries (sanitize : Js → Except String Sanitized) (patch : List (String × Sanitized))
    (entries : Entries) :
    Except String Entries :=
  patch.foldlM (fun (entries : Entries) p => do
    let s ← sanitize (asInput p.2)
    pure (entries.set p.1 (mergeMetadataEntry (entries.entry p.1) s))) entries

/-! The preview. -/

structure DiffEntry where
  id : String
  kind : String
  changedFields : List String
  before : Entry
  after : Entry

def changedFields (before after : Entry) : List String :=
  (before.keys ++ after.keys).eraseDups.filter fun field => before.get? field ≠ after.get? field

def buildDiffEntries (currentEntries : Entries) (patchedEntries : List (String × Sanitized))
    (kind : String) :
    List DiffEntry :=
  patchedEntries.filterMap fun p =>
    let before := currentEntries.entry p.1
    let after := mergeMetadataEntry before p.2
    if changedFields before after = [] then none
    else some ⟨p.1, kind, changedFields before after, before, after⟩

/-- The live status, as far as the errors of a preview depend on it. -/
structure Status where
  interfaces : List String
  links : List LinkRecord
  metadata : Store

def textAt (entry : Entry) (field : String) : Option String :=
  match entry.get? field with
  | some (.text "") => none
  | some (.text s) => some s
  | _ => none

def textsAt (entry : Entry) (field : String) : Option (List String) :=
  match entry.get? field with
  | some (.texts xs) => some xs
  | _ => none

def buildProjectedLink (link : LinkRecord) (metadata : Entry) : LinkRecord :=
  let type := (textAt metadata "type").getD (if link.type = "" then "unknown" else link.type)
  { link with
    type
    name := if link.peerPublicKey = "" then (textAt metadata "name").getD link.name
      else linkName type link.peerPublicKey (textAt metadata "name")
    exportedNetworks := (textsAt metadata "exportedNetworks").getD link.exportedNetworks
    importedNetworks := (textsAt metadata "importedNetworks").getD link.importedNetworks }

/-- The names that come up again, in the order of their second time. -/
def duplicateNames (seen : List String) : List String → List String
  | [] => []
  | name :: names =>
    if name ∈ seen then name :: duplicateNames seen names else duplicateNames (name :: seen) names

def networksOverlap (a b : String) : Bool := a = b || cidrContains a b || cidrContains b a

structure NetClaim where
  id : String
  name : String
  net : String

def netClaims (links : List LinkRecord) : List NetClaim :=
  (links.filter fun l => l.type ≠ "client").flatMap fun l =>
    (l.importedNetworks.filter fun net => !isHostRoute net).map fun net =>
      ⟨l.id, if l.name = "" then l.id else l.name, net⟩

def claimConflict (a b : NetClaim) : Option String :=
  if a.id = b.id || !networksOverlap a.net b.net then none
  else if a.net = b.net then some (a.net ++ " claimed by " ++ a.name ++ ", " ++ b.name)
  else some (a.net ++ " (" ++ a.name ++ ") overlaps " ++ b.net ++ " (" ++ b.name ++ ")")

def claimConflicts : List NetClaim → List String
  | [] => []
  | a :: claims => claims.filterMap (claimConflict a) ++ claimConflicts claims

/-- Two records with an id: the later one in the place of the first. -/
def byId (links : List LinkRecord) : List LinkRecord :=
  (links.foldl (fun (t : Table String LinkRecord) l => t.set l.id l) .empty).values

def findLinkNetworkConflicts (links : List LinkRecord) : List String :=
  claimConflicts (netClaims (byId links))

def previewErrors (status : Status) (patch : NormalPatch) : List String :=
  let nextLinks := patch.links.foldl (fun (entries : Entries) p =>
    entries.set p.1 (mergeMetadataEntry (status.metadata.links.entry p.1) p.2))
      status.metadata.links
  let projected := status.links.map fun l => buildProjectedLink l (nextLinks.entry l.id)
  (patch.interfaces.filter fun p => p.1 ∉ status.interfaces).map
    (fun p => "Unknown interface \"" ++ p.1 ++ "\"") ++
  (patch.links.filter fun p => p.1 ∉ status.links.map LinkRecord.id).map
    (fun p => "Unknown link \"" ++ p.1 ++ "\"") ++
  (duplicateNames [] ((projected.map LinkRecord.name).filter (· ≠ ""))).eraseDups.map (fun name =>
    "Duplicate link name \"" ++ name ++ "\" — link names must be unique for agent assignment") ++
  (findLinkNetworkConflicts projected).map fun c => "Subnet conflict: " ++ c ++
    " — only one peer can route a subnet"

structure Preview where
  errors : List String
  patch : NormalPatch
  interfacesDiff : List DiffEntry
  linksDiff : List DiffEntry

namespace Preview

def valid (p : Preview) : Bool := p.errors.isEmpty

def changedFieldCount (p : Preview) : ℕ :=
  ((p.interfacesDiff ++ p.linksDiff).map fun d => d.changedFields.length).sum

def blockedBy (p : Preview) : List String := dedupe (p.errors.map ("error:" ++ ·))

def canApply (p : Preview) : Bool := p.blockedBy.isEmpty && 0 < p.changedFieldCount

end Preview

section Plan

variable (isIP : String → Bool)

def normalizePatch (patch : PatchBody) : Except String NormalPatch := do
  let interfaces ← normalizeEntries (sanitizeInterfaceMetadataPatch isIP) patch.interfaces.entries
  let links ← normalizeEntries (sanitizeLinkMetadataPatch isIP) patch.links.entries
  pure ⟨interfaces, links⟩

def buildPlanPreview (status : Status) (patch : PatchBody) : Except String Preview := do
  let normalized ← normalizePatch isIP patch
  pure
    { errors := previewErrors status normalized
      patch := normalized
      interfacesDiff :=
        buildDiffEntries status.metadata.interfaces normalized.interfaces "interface"
      linksDiff := buildDiffEntries status.metadata.links normalized.links "link" }

def mergeMetadataStorePatch (store : Store) (patch : NormalPatch) : Except String Store := do
  let interfaces ← patchEntries (sanitizeInterfaceMetadataPatch isIP) patch.interfaces
    store.interfaces
  let links ← patchEntries (sanitizeLinkMetadataPatch isIP) patch.links store.links
  pure ⟨interfaces, links⟩

def summarizeApplyBlockers (p : Preview) : String :=
  if p.blockedBy.isEmpty then "apply-not-allowed"
  else "Apply blocked: " ++ ", ".intercalate p.blockedBy

/-- The store that is written, nothing else having been written since the status. -/
def applyMetadata (status : Status) (patch : PatchBody) : Except String Store := do
  let preview ← buildPlanPreview isIP status patch
  if !preview.valid then throw ("Preview invalid: " ++ ", ".intercalate preview.errors)
  else if !preview.canApply then throw (summarizeApplyBlockers preview)
  else mergeMetadataStorePatch isIP status.metadata preview.patch

end Plan

/-! Sanitizing again. -/

variable {fields : List FieldSpec} {input : String → Option Js} {s : Sanitized} {key id : String}
  {w : Option Value}

theorem sanitizeFields_cons {f : Sanitizer}
    (h : sanitizeFields ((key, f) :: fields) input = .ok s) :
    (input key = none ∧ sanitizeFields fields input = .ok s) ∨
      ∃ v w rest, input key = some v ∧ f v = .ok w ∧ sanitizeFields fields input = .ok rest ∧
      s = (key, w) :: rest := by
  rw [sanitizeFields] at h
  split at h
  · next hnone => exact .inl ⟨hnone, h⟩
  · next v hv =>
    obtain ⟨w, hw, h⟩ := Checked.bind_eq_ok.mp h
    obtain ⟨rest, hrest, h⟩ := Checked.bind_eq_ok.mp h
    exact .inr ⟨v, w, rest, hv, hw, hrest, (Except.ok.inj h).symm⟩

theorem keys_sanitizeFields (h : sanitizeFields fields input = .ok s) :
    (s.map Prod.fst).Sublist (fields.map Prod.fst) := by
  induction fields generalizing s with
  | nil =>
    obtain rfl : [] = s := Except.ok.inj h
    exact .slnil
  | cons p fields ih =>
    rcases sanitizeFields_cons h with ⟨-, h⟩ | ⟨v, w, rest, -, -, hrest, rfl⟩
    · exact (ih h).cons _
    · exact (ih hrest).cons_cons _

theorem lookup_eq_none (h : key ∉ s.map Prod.fst) : s.lookup key = none := by
  induction s with
  | nil => rfl
  | cons p s ih =>
    rw [List.map_cons, List.mem_cons, not_or] at h
    rw [List.lookup_cons, beq_false_of_ne h.1, ih h.2]

/-- A field of the result is its sanitizer's value of the input. -/
theorem lookup_sanitizeFields (hn : (fields.map Prod.fst).Nodup)
    (h : sanitizeFields fields input = .ok s)
    {p : FieldSpec} (hp : p ∈ fields) :
    input p.1 = none ∧ s.lookup p.1 = none ∨ ∃ v w, input p.1 = some v ∧ p.2 v = .ok w ∧
    s.lookup p.1 = some w := by
  induction fields generalizing s with
  | nil => cases hp
  | cons q fields ih =>
    rw [List.map_cons, List.nodup_cons] at hn
    rcases sanitizeFields_cons h with ⟨hnone, hrest⟩ | ⟨v, w, rest, hv, hw, hrest, rfl⟩
    · rcases List.mem_cons.mp hp with rfl | hp
      · exact .inl ⟨hnone, lookup_eq_none fun hmem => hn.1 ((keys_sanitizeFields hrest).mem hmem)⟩
      · exact ih hn.2 hrest hp
    · rcases List.mem_cons.mp hp with rfl | hp
      · exact .inr ⟨v, w, hv, hw, by rw [List.lookup_cons, beq_self_eq_true]⟩
      · have hne : p.1 ≠ q.1 := fun he => hn.1 (he ▸ List.mem_map_of_mem hp)
        rw [List.lookup_cons, beq_false_of_ne hne]
        exact ih hn.2 hrest hp

/-- Fields that keep their values keep the whole patch. -/
theorem sanitizeFields_again (hn : (fields.map Prod.fst).Nodup)
    (h : sanitizeFields fields input = .ok s)
    {again : String → Option Js} (hagain : ∀ p ∈ fields, again p.1 = (s.lookup p.1).map toJs)
    (hkeep : ∀ p ∈ fields, ∀ w, s.lookup p.1 = some w → p.2 (toJs w) = .ok w) :
    sanitizeFields fields again = .ok s := by
  induction fields generalizing s with
  | nil => exact h
  | cons q fields ih =>
    rw [List.map_cons, List.nodup_cons] at hn
    have hq := hagain q List.mem_cons_self
    rcases sanitizeFields_cons h with ⟨-, h⟩ | ⟨v, w, rest, -, -, hrest, rfl⟩
    · rw [lookup_eq_none fun hmem => hn.1 ((keys_sanitizeFields h).mem hmem)] at hq
      rw [sanitizeFields, hq]
      exact ih hn.2 h (fun p hp => hagain p (List.mem_cons_of_mem _ hp)) fun p hp =>
        hkeep p (List.mem_cons_of_mem _ hp)
    · have hlookup : ((q.1, w) :: rest).lookup q.1 = some w := by
        rw [List.lookup_cons, beq_self_eq_true]
      have hother : ∀ p ∈ fields, ((q.1, w) :: rest).lookup p.1 = rest.lookup p.1 := by
        intro p hp
        have hne : p.1 ≠ q.1 := fun he => hn.1 (he ▸ List.mem_map_of_mem hp)
        rw [List.lookup_cons, beq_false_of_ne hne]
      have hrest' := ih hn.2 hrest (fun p hp => hother p hp ▸ hagain p (List.mem_cons_of_mem _ hp))
        fun p hp w hw => hkeep p (List.mem_cons_of_mem _ hp) w (hother p hp ▸ hw)
      rw [hlookup] at hq
      rw [sanitizeFields, hq]
      change (do
        let w ← q.2 (toJs w)
        let rest ← sanitizeFields fields again
        pure ((q.1, w) :: rest)) = _
      rw [hkeep q List.mem_cons_self w hlookup, hrest']
      rfl

theorem sanitizePatch_again {v : Js} (hn : (fields.map Prod.fst).Nodup)
    (h : sanitizePatch fields v = .ok s)
    (hkeep : ∀ input, v = .object input → ∀ p ∈ fields, ∀ v w, input p.1 = some v → p.2 v = .ok w →
      p.2 (toJs w) = .ok w) :
    sanitizePatch fields (asInput s) = .ok s := by
  change sanitizeFields fields (fun key => (s.lookup key).map toJs) = .ok s
  unfold sanitizePatch at h
  split at h
  · cases h
  · next input =>
    refine sanitizeFields_again hn h (fun _ _ => rfl) fun p hp w hw => ?_
    rcases lookup_sanitizeFields hn h hp with ⟨-, hnone⟩ | ⟨v, w', hv, hw', hlookup⟩
    · rw [hnone] at hw
      cases hw
    · obtain rfl := Option.some.inj (hlookup.symm.trans hw)
      exact hkeep input rfl p hp v w' hv hw'
  · obtain rfl := Except.ok.inj h
    have hnothing (fields : List FieldSpec) : sanitizeFields fields (fun _ => none) = .ok [] := by
      induction fields with
      | nil => rfl
      | cons p fields ih => exact ih
    exact hnothing fields

/-! The fields of the entries. -/

theorem normalizeInterfaceRole_again {t s : String} (h : normalizeInterfaceRole t = some s) :
    normalizeInterfaceRole s = some s ∧ s ≠ "" := by
  unfold normalizeInterfaceRole at h
  split at h
  · cases h
  · split at h
    · obtain rfl := Option.some.inj h
      decide
    · split at h
      · next hne _ hmem =>
        obtain rfl := Option.some.inj h
        exact ⟨by rw [normalizeInterfaceRole, if_neg hne, if_neg ‹_›, if_pos hmem], hne⟩
      · cases h

theorem normalizeLinkType_again {t s : String} (h : normalizeLinkType (some t) = some s) :
    normalizeLinkType (some s) = some s ∧ s ≠ "" := by
  have hmembers : ∀ m ∈ linkTypes, normalizeLinkType (some m) = some m ∧ m ≠ "" := by decide
  unfold normalizeLinkType at h
  split at h
  · cases h
  · cases h
  · obtain rfl := Option.some.inj h
    exact hmembers _ (by decide)
  · obtain ⟨hmem, ⟨⟩⟩ := Option.ite_none_right_eq_some.mp h
    exact hmembers _ hmem

theorem oneOf_again {modes : List String} (hempty : "" ∉ modes) {t s : String}
    (h : oneOf modes t = some s) :
    oneOf modes s = some s ∧ s ≠ "" := by
  obtain ⟨hmem, ⟨⟩⟩ := Option.ite_none_right_eq_some.mp h
  exact ⟨if_pos hmem, fun he => hempty (he ▸ hmem)⟩

theorem stripLinkNameControlChars_again (name : String) :
    stripLinkNameControlChars (stripLinkNameControlChars name) = stripLinkNameControlChars
      name := by
  rw [stripLinkNameControlChars, stripLinkNameControlChars, String.toList_ofList,
    List.filter_filter]
  simp only [Bool.and_self]

section Fields

variable {isIP : String → Bool}

theorem stable_interfaceFields : ∀ p ∈ interfaceFields isIP, Stable p.2 := by
  have hmode (modes : List String) (hempty : "" ∉ modes) : Stable (textField (oneOf modes)) :=
    stable_textField (fun _ _ h => (oneOf_again hempty h).1) fun _ h => (oneOf_again hempty h).2 rfl
  simp only [interfaceFields, List.forall_mem_cons, List.not_mem_nil, false_imp_iff, implies_true,
    and_true]
  exact ⟨stable_textField (fun _ _ h => (normalizeInterfaceRole_again h).1) fun _ h =>
    (normalizeInterfaceRole_again h).2 rfl,
    hmode _ (by decide), stable_networks, stable_networks, stable_networks, stable_strings,
      stable_dns isIP⟩

/-- The text fields of a link that may end empty. -/
def looseFields : List (String × (String → String)) :=
  [("name", stripLinkNameControlChars), ("planIntent", fun t => t), ("planState", fun t => t)]

/-- The other fields of a link keep what they return; these do unless it is the empty text. -/
theorem linkFields_again : ∀ p ∈ linkFields isIP, ∀ v w, p.2 v = .ok w →
    (p.1 ∈ looseFields.map Prod.fst → w ≠ some (.text "")) → p.2 (toJs w) = .ok w := by
  have hmode (modes : List String) (hempty : "" ∉ modes) : Stable (textField (oneOf modes)) :=
    stable_textField (fun _ _ h => (oneOf_again hempty h).1) fun _ h => (oneOf_again hempty h).2 rfl
  have hplan : ∀ v w, textField some v = .ok w → w ≠ some (.text "") →
      textField some (toJs w) = .ok w :=
    fun v w h => textField_again (fun _ _ _ => rfl) h
  simp only [linkFields, List.forall_mem_cons, List.not_mem_nil, false_imp_iff, implies_true,
    and_true]
  refine ⟨fun v w h hne => textField_again (fun t s hs => ?_) h (hne (by decide)),
    fun v w h _ => stable_textField (fun _ _ h => (normalizeLinkType_again h).1)
      (fun _ h => (normalizeLinkType_again h).2 rfl) v w h,
    fun v w h _ => stable_networks v w h, fun v w h _ => stable_networks v w h,
    fun v w h _ => hmode _ (by decide) v w h, fun v w h _ => hmode _ (by decide) v w h,
    fun v w h hne => hplan v w h (hne (by decide)), fun v w h hne => hplan v w h (hne (by decide)),
    fun v w h _ => stable_dns isIP v w h, fun v w h _ => stable_fullTunnel v w h, fun v w h _ =>
      stable_platform v w h,
    fun v w h _ => stable_strings v w h⟩
  obtain rfl := Option.some.inj hs
  exact congrArg some (stripLinkNameControlChars_again t)

theorem nodup_linkFields : ((linkFields isIP).map Prod.fst).Nodup := by
  have hkeys : (linkFields isIP).map Prod.fst = (linkFields fun _ => false).map Prod.fst := rfl
  rw [hkeys]
  decide

theorem nodup_interfaceFields : ((interfaceFields isIP).map Prod.fst).Nodup := by
  have hkeys : (interfaceFields isIP).map Prod.fst = (interfaceFields fun _ => false).map
      Prod.fst := rfl
  rw [hkeys]
  decide

theorem mem_linkFields_of_loose :
    ∀ q ∈ looseFields, (q.1, textField fun t => some (q.2 t)) ∈ linkFields isIP := by
  simp only [looseFields, List.forall_mem_cons, List.not_mem_nil, false_imp_iff, implies_true,
    and_true]
  exact ⟨.head _, .tail _ (.tail _ (.tail _ (.tail _ (.tail _ (.tail _ (.head _)))))),
    .tail _ (.tail _ (.tail _ (.tail _ (.tail _ (.tail _ (.tail _ (.head _)))))))⟩

/-- A value that is not empty and whose text ends empty. -/
def emptied (f : String → String) (v : Js) : Bool :=
  v.truthy && match v.toText with
    | .ok t => f t = ""
    | .error _ => false

/-- No loose field of the patch of a link ends empty. -/
def keepsTexts : Js → Bool
  | .object input => looseFields.all fun q => !(input q.1).any (emptied q.2)
  | _ => true

theorem textField_eq_empty {f : String → String} {v : Js}
    (h : textField (fun t => some (f t)) v = .ok w) :
    w = some (.text "") ↔ emptied f v = true := by
  obtain ⟨text, htext, rfl⟩ := Checked.map_eq_ok.mp h
  unfold optionalText at htext
  rw [emptied]
  split at htext
  · next htruthy =>
    obtain ⟨t, ht, rfl⟩ := Checked.map_eq_ok.mp htext
    simp [htruthy, ht]
  · next hfalse =>
    obtain rfl := Except.ok.inj htext
    simp [hfalse]

variable {v : Js} {s' : Sanitized}

/-- A link patch without emptied texts is sanitized to itself. -/
theorem link_again (h : sanitizeLinkMetadataPatch isIP v = .ok s) (hkeep : keepsTexts v = true) :
    sanitizeLinkMetadataPatch isIP (asInput s) = .ok s := by
  refine sanitizePatch_again nodup_linkFields h fun input hinput p hp v w hv hw => ?_
  subst hinput
  refine linkFields_again p hp v w hw fun hloose hempty => ?_
  obtain ⟨q, hq, hqp⟩ := List.mem_map.mp hloose
  obtain rfl : (q.1, textField fun t => some (q.2 t)) = p :=
    List.inj_on_of_nodup_map nodup_linkFields (mem_linkFields_of_loose q hq) hp hqp
  have hemptied := (textField_eq_empty hw).mp hempty
  have hnot := List.all_eq_true.mp hkeep q hq
  rw [hv, Option.any_some, hemptied] at hnot
  cases hnot

theorem interface_again (h : sanitizeInterfaceMetadataPatch isIP v = .ok s) :
    sanitizeInterfaceMetadataPatch isIP (asInput s) = .ok s :=
  sanitizePatch_again nodup_interfaceFields h fun _ _ p hp v w _ hw =>
    stable_interfaceFields p hp v w hw

/-- An emptied text stands in the first result, and is cleared by the second. -/
theorem link_cleared (h : sanitizeLinkMetadataPatch isIP v = .ok s)
    (hempty : keepsTexts v = false) :
    ∃ key, s.lookup key = some (some (.text "")) ∧
      ∀ s', sanitizeLinkMetadataPatch isIP (asInput s) = .ok s' → s'.lookup key = some none := by
  unfold keepsTexts at hempty
  split at hempty
  · next input =>
    obtain ⟨q, hq, hany⟩ := List.all_eq_false.mp hempty
    rw [Bool.not_eq_true, Bool.not_eq_false', Option.any_eq_true] at hany
    obtain ⟨v, hv, hemptied⟩ := hany
    have hmem : (q.1, textField fun t => some (q.2 t)) ∈ linkFields isIP :=
      mem_linkFields_of_loose q hq
    have hlookup : s.lookup q.1 = some (some (.text "")) := by
      rcases lookup_sanitizeFields nodup_linkFields h hmem with ⟨hnone, -⟩
        | ⟨v', w, hv', hw, hlookup⟩
      · exact nomatch hnone.symm.trans hv
      · obtain rfl := Option.some.inj (hv'.symm.trans hv)
        rw [hlookup, (textField_eq_empty hw).mpr hemptied]
    refine ⟨q.1, hlookup, fun s' hs' => ?_⟩
    change sanitizeFields (linkFields isIP) (fun key => (s.lookup key).map toJs) = .ok s' at hs'
    rcases lookup_sanitizeFields nodup_linkFields hs' hmem with ⟨hnone, -⟩
      | ⟨v', w, hv', hw, hagain⟩
    · dsimp only at hnone
      rw [hlookup] at hnone
      cases hnone
    · dsimp only at hv'
      rw [hlookup] at hv'
      obtain rfl := Option.some.inj hv'
      rw [hagain, ← Except.ok.inj hw]
      rfl
  · cases hempty

end Fields

/-! The entries that are written. -/

variable {patch : List (String × Sanitized)} {entries t : Entries} {current : Entry} {kind : String}
  {sanitize : Js → Except String Sanitized}

theorem get?_applyField {field : String × Option Value} :
    (applyField current field).get? key = if key = field.1 then field.2 else current.get? key := by
  rw [applyField]
  cases field.2 with
  | some v => exact Table.get?_set
  | none => exact Table.get?_erase

theorem get?_mergeMetadataEntry (hn : (s.map Prod.fst).Nodup) :
    (mergeMetadataEntry current s).get? key = (s.lookup key).getD (current.get? key) := by
  induction s generalizing current with
  | nil => rfl
  | cons field s ih =>
    rw [List.map_cons, List.nodup_cons] at hn
    change (mergeMetadataEntry (applyField current field) s).get? key = _
    rw [ih hn.2, get?_applyField, List.lookup_cons]
    by_cases hkey : key = field.1
    · rw [if_pos hkey, hkey, lookup_eq_none hn.1, beq_self_eq_true]
      rfl
    · rw [if_neg hkey, beq_false_of_ne hkey]

theorem patchEntries_cons {p : String × Sanitized}
    (h : patchEntries sanitize (p :: patch) entries = .ok t) :
    ∃ s, sanitize (asInput p.2) = .ok s ∧
      patchEntries sanitize patch (entries.set p.1 (mergeMetadataEntry (entries.entry p.1) s)) =
        .ok t := by
  rw [patchEntries, List.foldlM_cons] at h
  obtain ⟨u, hu, h⟩ := Checked.bind_eq_ok.mp h
  obtain ⟨s, hs, hu⟩ := Checked.bind_eq_ok.mp hu
  obtain rfl := Except.ok.inj hu
  exact ⟨s, hs, h⟩

theorem get?_patchEntries_of_not_mem (h : patchEntries sanitize patch entries = .ok t)
    (hid : id ∉ patch.map Prod.fst) :
    t.get? id = entries.get? id := by
  induction patch generalizing entries with
  | nil => exact congrArg (Table.get? · id) (Except.ok.inj h).symm
  | cons p patch ih =>
    rw [List.map_cons, List.mem_cons, not_or] at hid
    obtain ⟨s, -, h⟩ := patchEntries_cons h
    rw [ih h hid.2, Table.get?_set, if_neg hid.1]

/-- A patched entry is merged with its patch, sanitized again. -/
theorem entry_patchEntries (hn : (patch.map Prod.fst).Nodup)
    (h : patchEntries sanitize patch entries = .ok t)
    {p : String × Sanitized} (hp : p ∈ patch) :
    ∃ s, sanitize (asInput p.2) = .ok s ∧
    t.entry p.1 = mergeMetadataEntry (entries.entry p.1) s := by
  induction patch generalizing entries with
  | nil => cases hp
  | cons q patch ih =>
    rw [List.map_cons, List.nodup_cons] at hn
    obtain ⟨s, hs, h⟩ := patchEntries_cons h
    rcases List.mem_cons.mp hp with rfl | hp
    · refine ⟨s, hs, ?_⟩
      rw [Entries.entry, get?_patchEntries_of_not_mem h hn.1, Table.get?_set, if_pos rfl,
        Option.getD_some]
    · obtain ⟨s', hs', hentry⟩ := ih hn.2 h hp
      have hne : p.1 ≠ q.1 := fun he => hn.1 (he ▸ List.mem_map_of_mem hp)
      refine ⟨s', hs', ?_⟩
      rw [hentry, Entries.entry, Table.get?_set, if_neg hne]
      rfl

theorem patchEntries_again (hagain : ∀ p ∈ patch, sanitize (asInput p.2) = .ok p.2) :
    ∃ t, patchEntries sanitize patch entries = .ok t := by
  induction patch generalizing entries with
  | nil => exact ⟨entries, rfl⟩
  | cons p patch ih =>
    obtain ⟨t, ht⟩ : ∃ t, patchEntries sanitize patch
        (entries.set p.1 (mergeMetadataEntry (entries.entry p.1) p.2)) = .ok t :=
      ih fun q hq => hagain q (List.mem_cons_of_mem _ hq)
    refine ⟨t, ?_⟩
    rw [patchEntries, List.foldlM_cons, hagain p List.mem_cons_self]
    exact ht

theorem nodup_sanitizePatch {v : Js} (hn : (fields.map Prod.fst).Nodup)
    (h : sanitizePatch fields v = .ok s) :
    (s.map Prod.fst).Nodup := by
  unfold sanitizePatch at h
  split at h
  · cases h
  · exact hn.sublist (keys_sanitizeFields h)
  · obtain rfl := Except.ok.inj h
    exact List.nodup_nil

/-! The normalized patch. -/

variable {body : List (String × Js)}

theorem ids_normalizeEntries (h : normalizeEntries sanitize body = .ok patch) :
    (patch.map Prod.fst).Sublist (body.map Prod.fst) := by
  obtain ⟨all, hall, h⟩ := Checked.bind_eq_ok.mp h
  obtain rfl := Except.ok.inj h
  have hids : all.map Prod.fst = body.map Prod.fst := by
    refine Checked.map_of_mapM_eq_ok (fun p q hq => ?_) hall
    obtain ⟨s, -, rfl⟩ := Checked.map_eq_ok.mp hq
    rfl
  exact hids ▸ List.filter_sublist.map _

theorem mem_normalizeEntries (h : normalizeEntries sanitize body = .ok patch)
    {p : String × Sanitized} :
    p ∈ patch ↔ p.2 ≠ [] ∧ ∃ v, (p.1, v) ∈ body ∧ sanitize v = .ok p.2 := by
  obtain ⟨all, hall, h⟩ := Checked.bind_eq_ok.mp h
  obtain rfl := Except.ok.inj h
  rw [List.mem_filter]
  constructor
  · rintro ⟨hp, hne⟩
    obtain ⟨q, hq, hqp⟩ := Checked.mem_of_mapM_eq_ok hall p hp
    obtain ⟨s, hs, rfl⟩ := Checked.map_eq_ok.mp hqp
    exact ⟨by simpa using hne, q.2, hq, hs⟩
  · rintro ⟨hne, v, hv, hs⟩
    obtain ⟨q, hq, hqv⟩ := Checked.exists_of_mapM_eq_ok hall _ hv
    obtain ⟨s, hs', rfl⟩ := Checked.map_eq_ok.mp hqv
    obtain rfl := Except.ok.inj (hs'.symm.trans hs)
    exact ⟨hq, by simpa using hne⟩

theorem sanitized_of_normalizeEntries (h : normalizeEntries sanitize body = .ok patch)
    {p : String × Js} (hp : p ∈ body) :
    ∃ s, sanitize p.2 = .ok s := by
  obtain ⟨all, hall, -⟩ := Checked.bind_eq_ok.mp h
  obtain ⟨q, -, hq⟩ := Checked.exists_of_mapM_eq_ok hall p hp
  obtain ⟨s, hs, -⟩ := Checked.map_eq_ok.mp hq
  exact ⟨s, hs⟩

/-! What the diff shows of a store. -/

/-- The entry is the `after` of its diff, and without a diff no field has changed. -/
def ShownAs (diff : List DiffEntry) (current next : Entries) (id : String) : Prop :=
  (∀ d ∈ diff, d.id = id → next.entry id = d.after) ∧
    ((∀ d ∈ diff, d.id ≠ id) → ∀ field, (next.entry id).get? field = (current.entry id).get? field)

variable {next : Entries} {p : String × Sanitized}

theorem mem_buildDiffEntries {d : DiffEntry} (h : d ∈ buildDiffEntries entries patch kind) :
    ∃ p ∈ patch, d.id = p.1 ∧ d.after = mergeMetadataEntry (entries.entry p.1) p.2 := by
  obtain ⟨p, hp, hd⟩ := List.mem_filterMap.mp h
  dsimp only at hd
  split at hd
  · cases hd
  · obtain rfl := Option.some.inj hd
    exact ⟨p, hp, rfl, rfl⟩

theorem get?_of_changedFields {before after : Entry} (h : changedFields before after = [])
    (field : String) :
    after.get? field = before.get? field := by
  by_contra hne
  have hkey : field ∈ before.keys ++ after.keys := by
    rw [List.mem_append]
    by_contra hnot
    rw [not_or] at hnot
    exact hne ((Table.get?_eq_none.mpr hnot.2).trans (Table.get?_eq_none.mpr hnot.1).symm)
  have hchanged : field ∈ changedFields before after :=
    List.mem_filter.mpr ⟨List.mem_eraseDups.mpr hkey, decide_eq_true (Ne.symm hne)⟩
  rw [h] at hchanged
  cases hchanged

/-- A patched entry that the diff leaves out keeps its fields. -/
theorem get?_of_not_in_diff (hp : p ∈ patch)
    (hno : ∀ d ∈ buildDiffEntries entries patch kind, d.id ≠ p.1) (field : String) :
    (mergeMetadataEntry (entries.entry p.1) p.2).get? field = (entries.entry p.1).get? field := by
  refine get?_of_changedFields ?_ field
  by_contra hchanged
  exact hno _ (List.mem_filterMap.mpr ⟨p, hp, if_neg hchanged⟩) rfl

/-- Patches that are sanitized to themselves are written as shown. -/
theorem shown_of_again (hn : (patch.map Prod.fst).Nodup)
    (hagain : ∀ p ∈ patch, sanitize (asInput p.2) = .ok p.2)
    (h : patchEntries sanitize patch entries = .ok next) (id : String) :
    ShownAs (buildDiffEntries entries patch kind) entries next id := by
  have hentry : ∀ p ∈ patch, next.entry p.1 = mergeMetadataEntry (entries.entry p.1) p.2 := by
    intro p hp
    obtain ⟨s, hs, hnext⟩ := entry_patchEntries hn h hp
    obtain rfl := Except.ok.inj (hs.symm.trans (hagain p hp))
    exact hnext
  constructor
  · rintro d hd rfl
    obtain ⟨p, hp, hid, hafter⟩ := mem_buildDiffEntries hd
    rw [hid, hafter, hentry p hp]
  · intro hno field
    by_cases hid : id ∈ patch.map Prod.fst
    · obtain ⟨p, hp, rfl⟩ := List.mem_map.mp hid
      rw [hentry p hp]
      exact get?_of_not_in_diff hp hno field
    · rw [Entries.entry, get?_patchEntries_of_not_mem h hid]
      rfl

/-- A field that is set by the first sanitizing and cleared by the second is not written as shown.
-/
theorem not_shown_of_cleared (hn : (patch.map Prod.fst).Nodup) (hp : p ∈ patch)
    (hfirst : (p.2.map Prod.fst).Nodup)
    (hagain : ∀ s, sanitize (asInput p.2) = .ok s → (s.map Prod.fst).Nodup ∧
      s.lookup key = some none)
    {v : Value} (hset : p.2.lookup key = some (some v))
    (h : patchEntries sanitize patch entries = .ok next) :
    ¬ ShownAs (buildDiffEntries entries patch kind) entries next p.1 := by
  intro hshown
  obtain ⟨s, hs, hnext⟩ := entry_patchEntries hn h hp
  obtain ⟨hns, hcleared⟩ := hagain s hs
  have hgone : (next.entry p.1).get? key = none := by
    rw [hnext, get?_mergeMetadataEntry hns, hcleared, Option.getD_some]
  have hafter : (mergeMetadataEntry (entries.entry p.1) p.2).get? key = some v := by
    rw [get?_mergeMetadataEntry hfirst, hset, Option.getD_some]
  by_cases hin : ∃ d ∈ buildDiffEntries entries patch kind, d.id = p.1
  · obtain ⟨d, hd, hid⟩ := hin
    obtain ⟨q, hq, hqid, hqafter⟩ := mem_buildDiffEntries hd
    obtain rfl : q = p := List.inj_on_of_nodup_map hn hq hp (hqid.symm.trans hid)
    rw [hshown.1 d hd hid, hqafter, hafter] at hgone
    cases hgone
  · have hno : ∀ d ∈ buildDiffEntries entries patch kind, d.id ≠ p.1 :=
      fun d hd hid => hin ⟨d, hd, hid⟩
    rw [hshown.2 hno key, ← get?_of_not_in_diff hp hno key, hafter] at hgone
    cases hgone

/-- The store `after` is what the preview of the patch shows of `before`. -/
structure Applied (patch : PatchBody) (preview : Preview) (before after : Store) : Prop where
  interfaces : ∀ id, ShownAs preview.interfacesDiff before.interfaces after.interfaces id
  links : ∀ id, ShownAs preview.linksDiff before.links after.links id
  otherInterfaces : ∀ id ∉ patch.interfaces.keys,
    after.interfaces.get? id = before.interfaces.get? id
  otherLinks : ∀ id ∉ patch.links.keys, after.links.get? id = before.links.get? id

/-- Sanitizing the sanitized patch changes nothing. -/
def SanitizedOnce (isIP : String → Bool) (patch : NormalPatch) : Prop :=
  (∀ p ∈ patch.interfaces, sanitizeInterfaceMetadataPatch isIP (asInput p.2) = .ok p.2) ∧
    ∀ p ∈ patch.links, sanitizeLinkMetadataPatch isIP (asInput p.2) = .ok p.2

/-- What is applied is what the preview shows, and sanitizing twice is sanitizing once, exactly if
no text of a link is given and ends empty. -/
theorem applied_iff_keepsTexts {isIP : String → Bool} {status : Status} {patch : PatchBody}
    {preview : Preview}
    (hpreview : buildPlanPreview isIP status patch = .ok preview) (hvalid : preview.valid = true)
    (happly : preview.canApply = true) :
    ((∃ store, applyMetadata isIP status patch = .ok store ∧
      Applied patch preview status.metadata store) ∧
      SanitizedOnce isIP preview.patch) ↔ ∀ p ∈ patch.links.entries, keepsTexts p.2 = true := by
  have happlies : applyMetadata isIP status patch = mergeMetadataStorePatch isIP status.metadata
      preview.patch := by
    rw [applyMetadata, hpreview]
    change (if !preview.valid then _ else _) = _
    rw [hvalid, Bool.not_true, if_neg Bool.false_ne_true, happly, Bool.not_true,
      if_neg Bool.false_ne_true]
  obtain ⟨normalized, hnormalized, hmade⟩ := Checked.bind_eq_ok.mp hpreview
  obtain ⟨interfaces, hinterfaces, hnormalized⟩ := Checked.bind_eq_ok.mp hnormalized
  obtain ⟨links, hlinks, hnormalized⟩ := Checked.bind_eq_ok.mp hnormalized
  obtain rfl := Except.ok.inj hnormalized
  obtain rfl := Except.ok.inj hmade
  have hinterfaceIds := ids_normalizeEntries hinterfaces
  have hlinkIds := ids_normalizeEntries hlinks
  have hnodupInterfaces := patch.interfaces.nodup.sublist hinterfaceIds
  have hnodupLinks := patch.links.nodup.sublist hlinkIds
  rw [happlies]
  constructor
  · rintro ⟨⟨store, hstore, happlied⟩, -⟩ p hp
    by_contra hempty
    obtain ⟨nextInterfaces, -, hstore⟩ := Checked.bind_eq_ok.mp hstore
    obtain ⟨nextLinks, hnextLinks, hstore⟩ := Checked.bind_eq_ok.mp hstore
    obtain rfl := Except.ok.inj hstore
    obtain ⟨s, hs⟩ := sanitized_of_normalizeEntries hlinks hp
    obtain ⟨key, hset, hcleared⟩ := link_cleared hs (Bool.eq_false_of_not_eq_true hempty)
    have hmem : (p.1, s) ∈ links := by
      refine (mem_normalizeEntries hlinks).mpr ⟨?_, p.2, hp, hs⟩
      rintro rfl
      cases hset
    refine not_shown_of_cleared hnodupLinks hmem (nodup_sanitizePatch nodup_linkFields hs)
      (fun s' hs' => ?_) hset hnextLinks
      (happlied.links p.1)
    exact ⟨nodup_sanitizePatch nodup_linkFields hs', hcleared s' hs'⟩
  · intro hkeep
    have hagainInterfaces : ∀ p ∈ interfaces, sanitizeInterfaceMetadataPatch isIP (asInput p.2) =
        .ok p.2 := by
      intro p hp
      obtain ⟨-, v, -, hv⟩ := (mem_normalizeEntries hinterfaces).mp hp
      exact interface_again hv
    have hagainLinks : ∀ p ∈ links, sanitizeLinkMetadataPatch isIP (asInput p.2) = .ok p.2 := by
      intro p hp
      obtain ⟨-, v, hmem, hv⟩ := (mem_normalizeEntries hlinks).mp hp
      exact link_again hv (hkeep _ hmem)
    obtain ⟨nextInterfaces, hnextInterfaces⟩ : ∃ t,
        patchEntries _ interfaces status.metadata.interfaces = .ok t :=
      patchEntries_again hagainInterfaces
    obtain ⟨nextLinks, hnextLinks⟩ : ∃ t, patchEntries _ links status.metadata.links = .ok t :=
      patchEntries_again hagainLinks
    refine ⟨⟨⟨nextInterfaces, nextLinks⟩, ?_, ?_, ?_, ?_, ?_⟩, hagainInterfaces, hagainLinks⟩
    · rw [mergeMetadataStorePatch, hnextInterfaces]
      change (do
        let links ← patchEntries (sanitizeLinkMetadataPatch isIP) links status.metadata.links
        pure (Store.mk nextInterfaces links)) = _
      rw [hnextLinks]
      rfl
    · exact shown_of_again hnodupInterfaces hagainInterfaces hnextInterfaces
    · exact shown_of_again hnodupLinks hagainLinks hnextLinks
    · exact fun id hid => get?_patchEntries_of_not_mem hnextInterfaces fun hmem =>
        hid (hinterfaceIds.mem hmem)
    · exact fun id hid => get?_patchEntries_of_not_mem hnextLinks fun hmem =>
        hid (hlinkIds.mem hmem)

/-! A plan that is applied as shown, and one that is not. -/

def sampleStatus : Status where
  interfaces := ["wg0"]
  links := [⟨"wg0:k", "site-to-site", "a", "k", ["10.0.0.0/24"], [], [], ["10.0.0.0/24"]⟩]
  metadata := ⟨.empty, Table.empty.set "wg0:k" (Table.empty.set "name" (.text "a"))⟩

/-- Rename the link of the sample. -/
def renameTo (name : String) : PatchBody where
  interfaces := .empty
  links :=
    Table.empty.set "wg0:k" (.object fun key => if key = "name" then some (.str name) else none)

def noIP (_ : String) : Bool := false

theorem applied_iff_keepsTexts_sample :
    ∃ preview, buildPlanPreview noIP sampleStatus (renameTo "b") = .ok preview ∧
    (∃ store, applyMetadata noIP sampleStatus (renameTo "b") = .ok store ∧
      Applied (renameTo "b") preview sampleStatus.metadata store) ∧
      SanitizedOnce noIP preview.patch := by
  have hok : ((buildPlanPreview noIP sampleStatus (renameTo "b")).toOption.map fun p =>
    (p.valid, p.canApply)) =
      some (true, true) := by decide +kernel
  have hkeep : ∀ p ∈ (renameTo "b").links.entries, keepsTexts p.2 = true := by
    intro p hp
    obtain rfl := List.mem_singleton.mp hp
    decide +kernel
  cases hpreview : buildPlanPreview noIP sampleStatus (renameTo "b") with
  | error e =>
    rw [hpreview] at hok
    cases hok
  | ok preview =>
    rw [hpreview] at hok
    obtain ⟨hvalid, happly⟩ := Prod.mk.inj (Option.some.inj hok)
    exact ⟨preview, rfl, (applied_iff_keepsTexts hpreview hvalid happly).mpr hkeep⟩

/-- A name of one control character. -/
def unseen : String := String.ofList [Char.ofNat 1]

/-- The preview shows an empty name, and the store that is written has none. -/
theorem shown_is_not_applied :
    ∃ preview store d, buildPlanPreview noIP sampleStatus (renameTo unseen) = .ok preview ∧
    preview.valid = true ∧ preview.canApply = true ∧
    applyMetadata noIP sampleStatus (renameTo unseen) = .ok store ∧
    preview.linksDiff = [d] ∧ d.id = "wg0:k" ∧ d.after.get? "name" = some (.text "") ∧
    (store.links.entry d.id).get? "name" = none := by
  refine ⟨_, _, _, rfl, ?_, ?_, rfl, rfl, rfl, ?_, ?_⟩ <;> decide +kernel

end FloppyGuard.WireGuard.Patch
