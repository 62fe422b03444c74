import FloppyGuard.Lib.JsonText
import FloppyGuard.WireGuard.ClientConfig

/-! A metadata patch as it comes from a request, and what the sanitizers make of each field. -/
namespace FloppyGuard.WireGuard.Patch

open Text

/-- A value of a request body. -/
inductive Js
  | undefined
  | null
  | bool (b : Bool)
  | number (text : String)
  | str (s : String)
  | array (items : List Js)
  | object (fields : String → Option Js)

namespace Js

def truthy : Js → Bool
  | .undefined | .null => false
  | .bool b => b
  | .number text => text ≠ "0"
  | .str s => s ≠ ""
  | .array _ | .object _ => true

/-- An element as `Array.prototype.join` takes it. -/
def isBlank : Js → Bool
  | .undefined | .null => true
  | _ => false

mutual

/-- `String(value)` -/
def toText : Js → Except String String
  | .undefined => .ok "undefined"
  | .null => .ok "null"
  | .bool b => .ok (if b then "true" else "false")
  | .number text => .ok text
  | .str s => .ok s
  | .array items => do
    let texts ← elementTexts items
    pure (",".intercalate texts)
  | .object fields =>
    -- a member of that name is never a function
    if (fields "toString").isSome then .error "Cannot convert object to primitive value"
    else .ok "[object Object]"

def elementTexts : List Js → Except String (List String)
  | [] => .ok []
  | item :: items => do
    let text ← if item.isBlank then pure "" else item.toText
    let texts ← elementTexts items
    pure (text :: texts)

end

end Js

/-- A field of a metadata entry; `raw` is the JSON text of any other value. -/
inductive Value
  | text (s : String)
  | texts (xs : List String)
  | flag (b : Bool)
  | raw (json : String)
deriving DecidableEq

def Value.toJs : Value → Js
  | .text s => .str s
  | .texts xs => .array (xs.map .str)
  | .flag b => .bool b
  | .raw json => .str json

/-- A sanitized field; `none` is `undefined`, which clears the field. -/
abbrev Sanitizer := Js → Except String (Option Value)

def toJs (v : Option Value) : Js := (v.map Value.toJs).getD .undefined

/-! The fields. -/

/-- `x ? String(x) : undefined` -/
def optionalText (v : Js) : Except String (Option String) :=
  if v.truthy then v.toText.map some else .ok none

def textField (f : String → Option String) : Sanitizer := fun v =>
  (optionalText v).map fun text => (text.bind f).map .text

def interfaceRoles : List String :=
  ["client-hub", "site-to-site", "hub-link", "auxiliary", "unknown"]

def managementModes : List String := ["local", "imported", "unknown"]

def remoteManagementModes : List String := ["none", "ssh", "agent", "unknown"]

def returnPathModes : List String := ["auto", "routed", "static-route", "nat", "unknown"]

def normalizeInterfaceRole (role : String) : Option String :=
  if role = "" then none
  else if role = "site-link" then some "site-to-site"
  else if role ∈ interfaceRoles then some role else none

def isControlChar (c : Char) : Bool := c.toNat < 0x20 || c.toNat = 0x7f

def stripLinkNameControlChars (name : String) : String :=
  String.ofList (name.toList.filter fun c => !isControlChar c)

def oneOf (modes : List String) (mode : String) : Option String :=
  if mode ∈ modes then some mode else none

def platform : Sanitizer
  | .str s => .ok (if s ∈ ["desktop", "mobile"] then some (.text s) else none)
  | _ => .ok none

def fullTunnel : Sanitizer := fun v => .ok (some (.flag v.truthy))

/-- The distinct entries a list keeps. -/
def sanitizeItems (f : Js → Except String (Option String)) (items : List Js) :
    Except String (List String) :=
  (items.mapM f).map fun xs => (xs.filterMap id).eraseDups

def trimmed (s : String) : String := String.ofList (trim s.toList)

/-- `String(item ?? "").trim()` -/
def itemText (item : Js) : Except String String :=
  (if item.isBlank then pure "" else item.toText).map trimmed

def networkItem (item : Js) : Except String (Option String) := do
  let raw ← itemText item
  if raw = "" then pure none
  else match canonicalizeIpv4Network raw with
    | none =>
      if ':' ∈ raw.toList then
        throw
          ("Netz " ++ raw ++
            " wird nicht unterstützt — das Mesh routet nur IPv4-Standortnetze (z. B. 10.0.0.0/24)")
      else throw ("Ungültiges Netz " ++ raw ++ " — erwartet IPv4-CIDR wie 10.0.0.0/24")
    | some canon =>
      if isAcceptableNetworkPrefix canon.render then pure (some canon.render)
      else
        throw ("Netz " ++ raw ++ " ist nicht erlaubt (kürzer als /" ++ toString minNetworkPrefix ++
          ", deckt die Default-Route ganz oder teilweise ab) — für Full-Tunnel die " ++
          "Client-Option nutzen")

def sanitizeNetworkArray : Js → Except String (List String)
  | .array items => sanitizeItems networkItem items
  | _ => .ok []

/-- `String(item || "").trim()` -/
def stringItem (item : Js) : Except String (Option String) := do
  let s ← (if item.truthy then item.toText else pure "").map trimmed
  pure (if s = "" then none else some s)

def sanitizeStringArray : Js → Except String (List String)
  | .array items => sanitizeItems stringItem items
  | _ => .ok []

section Dns

variable (isIP : String → Bool)

def dnsItem (item : Js) : Except String (Option String) := do
  let s ← itemText item
  if s = "" then pure none
  else if isValidDnsEntry isIP s then pure (some s)
  else throw ("Invalid DNS entry: " ++ String.ofList (JsonText.quote s.toList))

def sanitizeDnsArray : Js → Except String (List String)
  | .null | .undefined => .ok []
  | .array items => sanitizeItems (dnsItem isIP) items
  | _ => .error "dns must be an array of IP addresses or host names"

end Dns

def listField (f : Js → Except String (List String)) : Sanitizer :=
  fun v => (f v).map fun xs => some (.texts xs)

/-! A sanitized field, sanitized again. -/

/-- What the sanitizer returns, it returns again when it is given back. -/
def Stable (f : Sanitizer) : Prop := ∀ v w, f v = .ok w → f (toJs w) = .ok w

variable {f : String → Option String} {v : Js} {w : Option Value} {s : String} {items : List Js}
  {xs : List String}

theorem eraseDups_eraseDups (xs : List String) : xs.eraseDups.eraseDups = xs.eraseDups := by
  match xs with
  | [] => rfl
  | x :: xs =>
    rw [List.eraseDups_cons, List.eraseDups_cons]
    have hfilter : ((xs.filter fun y => !y == x).eraseDups.filter fun y => !y == x) =
        (xs.filter fun y => !y == x).eraseDups :=
      List.filter_eq_self.mpr fun y hy => (List.mem_filter.mp (List.mem_eraseDups.mp hy)).2
    rw [hfilter, eraseDups_eraseDups (xs.filter fun y => !y == x)]
termination_by xs.length
decreasing_by exact Nat.lt_succ_of_le (List.length_filter_le _ _)

theorem optionalText_str (hs : s ≠ "") : optionalText (.str s) = .ok (some s) := by
  rw [optionalText, Js.truthy, if_pos (decide_eq_true hs)]
  rfl

/-- A text field is stable where it does not end empty. -/
theorem textField_again (hf : ∀ t s, f t = some s → f s = some s) (h : textField f v = .ok w)
    (hne : w ≠ some (.text "")) : textField f (toJs w) = .ok w := by
  obtain ⟨text, htext, rfl⟩ := Checked.map_eq_ok.mp h
  cases hs : text.bind f with
  | none => rfl
  | some s =>
    obtain ⟨t, rfl, ht⟩ := Option.bind_eq_some_iff.mp hs
    have hs' : s ≠ "" := by
      rintro rfl
      exact hne (by rw [hs]; rfl)
    change (optionalText (.str s)).map _ = _
    rw [optionalText_str hs']
    exact congrArg (fun o => Except.ok (Option.map Value.text o)) (hf t s ht)

theorem stable_textField (hf : ∀ t s, f t = some s → f s = some s) (hne : ∀ t, f t ≠ some "") :
    Stable (textField f) := by
  intro v w h
  refine textField_again hf h ?_
  rintro rfl
  obtain ⟨text, -, hw⟩ := Checked.map_eq_ok.mp h
  obtain ⟨s, hs, hempty⟩ := Option.map_eq_some_iff.mp hw
  obtain ⟨t, -, ht⟩ := Option.bind_eq_some_iff.mp hs
  exact hne t (Value.text.inj hempty ▸ ht)

theorem stable_platform : Stable platform := by
  intro v w h
  unfold platform at h
  split at h
  · next s =>
    obtain rfl := Except.ok.inj h
    by_cases hs : s ∈ ["desktop", "mobile"]
    · rw [if_pos hs]
      exact congrArg Except.ok (if_pos hs)
    · rw [if_neg hs]
      rfl
  · obtain rfl := Except.ok.inj h
    rfl

theorem stable_fullTunnel : Stable fullTunnel := by
  intro v w h
  obtain rfl := Except.ok.inj h
  rfl

/-- A list of items each of which is kept again is kept again. -/
theorem sanitizeItems_again {f : Js → Except String (Option String)}
    (hf : ∀ item s, f item = .ok (some s) → f (.str s) = .ok (some s))
    (h : sanitizeItems f items = .ok xs) : sanitizeItems f (xs.map .str) = .ok xs := by
  obtain ⟨ys, hys, rfl⟩ := Checked.map_eq_ok.mp h
  have hkept : ∀ x ∈ (ys.filterMap id).eraseDups, f (.str x) = .ok (some x) := by
    intro x hx
    obtain ⟨y, hy, rfl⟩ := List.mem_filterMap.mp (List.mem_eraseDups.mp hx)
    obtain ⟨item, -, hitem⟩ := Checked.mem_of_mapM_eq_ok hys _ hy
    exact hf item x hitem
  have hmap (zs : List String) (hzs : ∀ x ∈ zs, f (.str x) = .ok (some x)) : (zs.map Js.str).mapM
      f = .ok (zs.map some) := by
    induction zs with
    | nil => rfl
    | cons z zs ih =>
      rw [List.map_cons, List.mapM_cons, hzs z List.mem_cons_self, ih fun x hx =>
        hzs x (List.mem_cons_of_mem _ hx)]
      rfl
  rw [sanitizeItems, hmap _ hkept]
  refine congrArg Except.ok ?_
  dsimp only
  rw [List.filterMap_map, Function.id_comp, List.filterMap_some, eraseDups_eraseDups]

theorem trimmed_trimmed (s : String) : trimmed (trimmed s) = trimmed s := by
  rw [trimmed, trimmed, String.toList_ofList, trim_trim]

theorem itemText_str (s : String) : itemText (.str s) = .ok (trimmed s) := rfl

theorem trimmed_render (c : Cidr) : trimmed c.render = c.render := by
  rw [trimmed, show c.render.toList = c.toText from String.toList_ofList,
    trim_of_forall isSpace_of_mem_toText]
  rfl

theorem canonicalizeIpv4Network_render (c : Cidr) : canonicalizeIpv4Network c.render = some c := by
  have hslash : '/' ∈ c.render.toList := by
    rw [show c.render.toList = c.toText from String.toList_ofList, Cidr.toText]
    exact List.mem_append_right _ List.mem_cons_self
  rw [canonicalizeIpv4Network, if_pos hslash, canonicalCidr_render]

theorem networkItem_again {item : Js} (h : networkItem item = .ok (some s)) :
    networkItem (.str s) = .ok (some s) := by
  obtain ⟨raw, -, h⟩ := Checked.bind_eq_ok.mp h
  split at h
  · cases h
  · split at h
    · split at h <;> cases h
    · next c _ =>
      split at h
      · next hacceptable =>
        obtain rfl : c.render = s := Option.some.inj (Except.ok.inj h)
        rw [networkItem, itemText_str, trimmed_render]
        change (if c.render = "" then _ else _) = _
        rw [if_neg (ne_empty_of_acceptable hacceptable), canonicalizeIpv4Network_render]
        exact if_pos hacceptable
      · cases h

theorem stringItem_again {item : Js} (h : stringItem item = .ok (some s)) :
    stringItem (.str s) = .ok (some s) := by
  obtain ⟨t, ht, h⟩ := Checked.bind_eq_ok.mp h
  obtain ⟨raw, -, rfl⟩ := Checked.map_eq_ok.mp ht
  have h := Except.ok.inj h
  split at h
  · cases h
  · next hne =>
    obtain rfl := Option.some.inj h
    rw [stringItem, Js.truthy, if_pos (decide_eq_true hne)]
    change Except.ok (if trimmed (trimmed raw) = "" then none else some (trimmed (trimmed raw))) = _
    rw [trimmed_trimmed, if_neg hne]

theorem dnsItem_again {isIP : String → Bool} {item : Js} (h : dnsItem isIP item = .ok (some s)) :
    dnsItem isIP (.str s) = .ok (some s) := by
  obtain ⟨t, ht, h⟩ := Checked.bind_eq_ok.mp h
  obtain ⟨raw, -, rfl⟩ := Checked.map_eq_ok.mp ht
  split at h
  · cases h
  · next hne =>
    split at h
    · next hvalid =>
      obtain rfl := Option.some.inj (Except.ok.inj h)
      rw [dnsItem, itemText_str, trimmed_trimmed]
      change (if trimmed raw = "" then _ else _) = _
      rw [if_neg hne, if_pos hvalid]
      rfl
    · cases h

theorem stable_listField {f : Js → Except String (List String)}
    (hf : ∀ v xs, f v = .ok xs → f (.array (xs.map .str)) = .ok xs) :
    Stable (listField f) := by
  intro v w h
  obtain ⟨xs, hxs, rfl⟩ := Checked.map_eq_ok.mp h
  change (f (.array (xs.map .str))).map _ = _
  rw [hf v xs hxs]
  rfl

theorem stable_networks : Stable (listField sanitizeNetworkArray) := by
  refine stable_listField fun v xs h => ?_
  unfold sanitizeNetworkArray at h
  split at h
  · exact sanitizeItems_again (fun _ _ => networkItem_again) h
  · obtain rfl := Except.ok.inj h
    rfl

theorem stable_strings : Stable (listField sanitizeStringArray) := by
  refine stable_listField fun v xs h => ?_
  unfold sanitizeStringArray at h
  split at h
  · exact sanitizeItems_again (fun _ _ => stringItem_again) h
  · obtain rfl := Except.ok.inj h
    rfl

theorem stable_dns (isIP : String → Bool) : Stable (listField (sanitizeDnsArray isIP)) := by
  refine stable_listField fun v xs h => ?_
  unfold sanitizeDnsArray at h
  split at h
  · obtain rfl := Except.ok.inj h
    rfl
  · obtain rfl := Except.ok.inj h
    rfl
  · exact sanitizeItems_again (fun _ _ => dnsItem_again) h
  · cases h

end FloppyGuard.WireGuard.Patch
