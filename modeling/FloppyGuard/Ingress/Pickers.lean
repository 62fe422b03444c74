import FloppyGuard.Ingress.FormTexts

/-! What the pickers of the rule form show of a list, and what they write back (`catalog.ts`,
`CatalogPicker.tsx`). -/
namespace FloppyGuard.Ingress.Form

open Text Word32
open CidrNumbers (tooLarge joinOctets network printed)

/-- The network as a number, and the length of its prefix. -/
def parseCidr (value : String) : Option (ℤ × ℕ) :=
  match ipv4Cidr (trim value.toList) with
  | none => none
  | some (octets, bits) =>
    if tooLarge octets then none
    else if 32 < bits.getD 32 then none
    else
      let ip :=
        ushr (bor (bor (bor (shl octets.1 24) (shl octets.2.1 16)) (shl octets.2.2.1 8))
          octets.2.2.2) 0
      some (network ip (bits.getD 32), bits.getD 32)

def intToIp (n : ℤ) : List Char :=
  ['.'].intercalate ([ushr n 24, band (ushr n 16) 255, band (ushr n 8) 255, band n 255].map printed)

def canonCidr (value : String) : String :=
  match parseCidr value with
  | some (net, bits) => String.ofList (intToIp net ++ '/' :: Nat.toDigits 10 bits)
  | none => String.ofList (trim value.toList)

/-- A `/32` is shown without its prefix. -/
def shortCidr (cidr : String) : String :=
  let c := canonCidr cidr
  if "/32".toList <:+ c.toList then String.ofList (c.toList.take (c.toList.length - 3)) else c

/-- An entry of the catalog. -/
structure PickerEntry where
  id : String
  cidrs : List String
  deriving DecidableEq

namespace PickerEntry

def canon (e : PickerEntry) : List String := e.cidrs.map canonCidr

end PickerEntry

/-- The loop over the candidates: what is claimed, the ids seen, and the entries chosen with the
place of their first CIDR in the list. -/
structure Claims where
  claimed : List String
  seen : List String
  chosen : List (PickerEntry × ℕ)

def Claims.none : Claims := ⟨[], [], []⟩

def Claims.add (index : List String) (c : Claims) (e : PickerEntry) : Claims :=
  if e.id ∈ c.seen then c
  else if ¬ ∀ x ∈ e.canon, x ∈ index then c
  else if ∃ x ∈ e.canon, x ∈ c.claimed then c
  else
    { claimed := c.claimed ++ e.canon
      seen := e.id :: c.seen
      chosen := c.chosen ++ [(e, (e.canon.map (index.idxOf ·)).min?.getD 0)] }

/-- The entries with CIDRs, those with most first. -/
def candidates (entries : List PickerEntry) : List PickerEntry :=
  (entries.filter (·.cidrs ≠ [])).mergeSort fun a b => decide (b.cidrs.length ≤ a.cidrs.length)

/-- What no chosen entry has is left over, each network once, as it was given: the networks seen and
the rest so far. -/
def addRest (claimed : List String) (acc : List String × List String) (raw : String) :
    List String × List String :=
  if canonCidr raw ∈ claimed ∨ canonCidr raw ∈ acc.1 then acc
  else (canonCidr raw :: acc.1, acc.2 ++ [raw])

structure Collapsed where
  entries : List PickerEntry
  rest : List String

def collapseCidrs (cidrs : List String) (entries : List PickerEntry) : Collapsed :=
  let claims := (candidates entries).foldl (Claims.add (cidrs.map canonCidr)) .none
  { entries := (claims.chosen.mergeSort fun a b => decide (a.2 ≤ b.2)).map Prod.fst
    rest := (cidrs.foldl (addRest claims.claimed) ([], [])).2 }

/-- What the picker shows. -/
structure PickerOption where
  value : String
  cidrs : List String
  deriving DecidableEq

def PickerEntry.option (e : PickerEntry) : PickerOption := ⟨e.id, e.canon⟩

def cidrOption (c : String) : PickerOption := ⟨"cidr:" ++ c, [canonCidr c]⟩

def selected (value : String) (entries : List PickerEntry) : List PickerOption :=
  let collapsed := collapseCidrs (splitList value) entries
  collapsed.entries.map PickerEntry.option ++ collapsed.rest.map cidrOption

/-- The text a selection is written as. -/
def emit (opts : List PickerOption) : String :=
  ", ".intercalate (((opts.flatMap PickerOption.cidrs).foldl pushNew []).map shortCidr)

/-! Ports and presets. -/

structure Preset where
  id : String
  ports : List Port
  deriving DecidableEq

structure PortSelection where
  presetIds : List String
  custom : String
  deriving DecidableEq

/-- The presets all of whose ports are among the ports. -/
def wholePresets (ports : List Port) (presets : List Preset) : List Preset :=
  presets.filter fun p => p.ports ≠ [] && p.ports.all fun x => portKey x ∈ ports.map portKey

def portsToPresetSelection (ports : List Port) (presets : List Preset) : PortSelection :=
  if ports = [] then ⟨if ∃ p ∈ presets, p.id = "all" then ["all"] else [], ""⟩
  else
    let used := (wholePresets ports presets).flatMap fun p => p.ports.map portKey
    ⟨(wholePresets ports presets).map Preset.id,
      formatPorts (ports.filter fun p => portKey p ∉ used)⟩

/-- One port more, unless its key was seen. -/
def addPort (out : List Port) (p : Port) : List Port :=
  if portKey p ∈ out.map portKey then out else out ++ [p]

def selectionToPorts (presetIds : List String) (custom : String) (presets : List Preset) :
    List Port :=
  if "all" ∈ presetIds then []
  else
    let fromPresets := presetIds.flatMap fun id =>
      ((presets.find? (·.id = id)).map Preset.ports).getD []
    (fromPresets ++ (parsePorts custom).ports).foldl addPort []

variable {value : String} {s : List Char} {octets : ℕ × ℕ × ℕ × ℕ} {bits : Option ℕ} {c : Cidr}
  {x : String} {e : PickerEntry}
  {entries es : List PickerEntry} {index cidrs xs : List String} {claims : Claims}
    {opts : List PickerOption} {o : PickerOption}

/-! The networks are those of the other readers. -/

theorem bor_eq_joinOctets (h : tooLarge octets = false) :
    ushr (bor (bor (bor (shl octets.1 24) (shl octets.2.1 16)) (shl octets.2.2.1 8)) octets.2.2.2)
      0 = joinOctets octets := by
  obtain ⟨a, b, c, d⟩ := octets
  rw [CidrNumbers.joinOctets_eq h, ushr_zero]
  simp only [tooLarge, Bool.or_eq_false_iff, decide_eq_false_iff_not, not_lt] at h
  obtain ⟨⟨⟨ha, hb⟩, hc⟩, hd⟩ := h
  have hor : (word (bor (bor (bor (shl a 24) (shl b 16)) (shl c 8)) d)).toNat =
      a <<< 24 ||| (b <<< 16 ||| (c <<< 8 ||| d)) := by
    have hshift (n k : ℕ) (hn : n * 2 ^ k < 2 ^ 32) (hk : k < 32) : (word (shl n k)).toNat =
        n <<< k := by
      have hone : 1 ≤ 2 ^ k := Nat.one_le_two_pow
      have hle : n * 1 ≤ n * 2 ^ k := Nat.mul_le_mul_left n hone
      have hsmall : n < 2 ^ 32 := by omega
      rw [word_shl, word, BitVec.ofInt_natCast, BitVec.toNat_shiftLeft, BitVec.toNat_ofNat,
        Nat.mod_eq_of_lt hk,
        Nat.mod_eq_of_lt hsmall, Nat.shiftLeft_eq, Nat.mod_eq_of_lt hn]
    have hlast : (word (d : ℤ)).toNat = d := by
      have hsmall : d < 2 ^ 32 := by omega
      rw [word, BitVec.ofInt_natCast, BitVec.toNat_ofNat, Nat.mod_eq_of_lt hsmall]
    rw [word_bor, word_bor, word_bor, BitVec.toNat_or, BitVec.toNat_or, BitVec.toNat_or,
      hshift a 24 (by omega) (by omega),
      hshift b 16 (by omega) (by omega), hshift c 8 (by omega) (by omega), hlast, Nat.or_assoc,
        Nat.or_assoc]
  have hthird : c <<< 8 ||| d = c * 256 + d := by
    rw [← Nat.shiftLeft_add_eq_or_of_lt (by omega), Nat.shiftLeft_eq]
  have hsecond : b <<< 16 ||| (c * 256 + d) = b * 65536 + (c * 256 + d) := by
    rw [← Nat.shiftLeft_add_eq_or_of_lt (by omega), Nat.shiftLeft_eq]
  have hfirst : a <<< 24 ||| (b * 65536 + (c * 256 + d)) = a * 16777216 +
      (b * 65536 + (c * 256 + d)) := by
    rw [← Nat.shiftLeft_add_eq_or_of_lt (by omega), Nat.shiftLeft_eq]
  rw [hor, hthird, hsecond, hfirst]
  push_cast
  omega

theorem intToIp_toNat (x : Ip) : intToIp (x.toNat : ℤ) = FloppyGuard.intToIp x := by
  have hfirst : ushr (x.toNat : ℤ) 24 = band (ushr (x.toNat : ℤ) 24) 255 := by
    rw [CidrNumbers.band_255, word_ushr, word_toNat]
    have hlt : (x >>> 24).toNat < 2 ^ 8 := by
      rw [BitVec.toNat_ushiftRight, Nat.shiftRight_eq_div_pow]
      omega
    have hmask : (x >>> 24 &&& 255#32).toNat = (x >>> 24).toNat := by
      rw [BitVec.toNat_and]
      exact (Nat.and_two_pow_sub_one_eq_mod _ 8).trans (Nat.mod_eq_of_lt hlt)
    rw [ushr, word_toNat]
    exact congrArg Nat.cast hmask.symm
  rw [intToIp, hfirst]
  exact CidrNumbers.intToIp_toNat x

theorem intToIp_network {m : ℤ} {p : ℕ} (hp : p ≤ 32) :
    CidrNumbers.intToIp (network m p) = intToIp (network m p) := by
  rw [CidrNumbers.network_eq hp, CidrNumbers.intToIp_toNat, intToIp_toNat]

theorem canonicalCidr_parse (value : String) : (canonicalCidr value).map Cidr.render =
    (parseCidr value).map fun p => String.ofList (intToIp p.1 ++ '/' :: Nat.toDigits 10 p.2) := by
  rw [← CidrNumbers.canonicalCidr_eq]
  unfold CidrNumbers.canonicalCidr parseCidr ipv4Cidr
  generalize trim value.toList = s
  dsimp only
  by_cases hs : s = []
  · subst hs
    rfl
  rw [if_neg hs]
  rcases s.splitOn '/' with _ | ⟨addr, _ | ⟨pre, _ | ⟨_, _⟩⟩⟩
  · rfl
  · dsimp only
    rw [CidrNumbers.ipToInt]
    cases hg : CidrNumbers.groups addr with
    | none => rfl
    | some g =>
      by_cases hlarge : tooLarge g = true
      · simp [hlarge]
      · simp [hlarge, bor_eq_joinOctets (Bool.eq_false_iff.mpr hlarge), intToIp_network]
  · dsimp only
    rw [CidrNumbers.ipToInt]
    cases hg : CidrNumbers.groups addr with
    | none => rfl
    | some g =>
      cases hp : number 2 pre with
      | none => by_cases hlarge : tooLarge g = true <;> simp [hlarge]
      | some p =>
        by_cases hlarge : tooLarge g = true
        · simp [hlarge]
        · by_cases hlen : 32 < p
          · simp [hlarge, hlen]
          · simp [hlarge, hlen, bor_eq_joinOctets (Bool.eq_false_iff.mpr hlarge),
              intToIp_network (not_lt.mp hlen)]
  · rfl

/-- The network of a text, if it is one. -/
theorem canonCidr_eq (value : String) : canonCidr value =
    ((canonicalCidr value).map Cidr.render).getD (String.ofList (trim value.toList)) := by
  rw [canonicalCidr_parse, canonCidr]
  cases parseCidr value with
  | none => rfl
  | some p => rfl

/-- A word that passes the check of the form is a network. -/
theorem canonicalCidr_of_valid (hw : Word x) (h : isIpv4OrCidr x = true) :
    ∃ c, canonicalCidr x = some c := by
  have hparse : (parseCidr x).isSome = true := by
    unfold isIpv4OrCidr at h
    rw [parseCidr, trim_of_clean hw.2]
    cases hparts : ipv4Cidr x.toList with
    | none =>
      rw [hparts] at h
      cases h
    | some parts =>
      obtain ⟨octets, bits⟩ := parts
      rw [hparts] at h
      simp only [Bool.and_eq_true, Bool.not_eq_true'] at h
      have hbits : ¬ 32 < bits.getD 32 := by
        cases bits with
        | none => simp
        | some n => simpa using h.2
      simp [h.1, hbits]
  have hmap := congrArg Option.isSome (canonicalCidr_parse x)
  rw [Option.isSome_map, Option.isSome_map, hparse] at hmap
  exact Option.isSome_iff_exists.mp hmap

theorem canonCidr_of_some (h : canonicalCidr x = some c) : canonCidr x = c.render := by
  rw [canonCidr_eq, h]
  rfl

theorem canonCidr_render (c : Cidr) : canonCidr c.render = c.render :=
  canonCidr_of_some (canonicalCidr_render c)

/-! A network that is shown short is read back whole. -/

theorem slash_suffix_iff : "/32".toList <:+ c.render.toList ↔ c.len = 32 := by
  have htext : c.render.toList = FloppyGuard.intToIp c.base ++ '/' :: Nat.toDigits 10 c.len := by
    rw [Cidr.render, String.toList_ofList, Cidr.toText]
  constructor
  · rintro ⟨front, hfront⟩
    have hcut : front ++ '/' :: "32".toList = FloppyGuard.intToIp c.base ++ '/' ::
        Nat.toDigits 10 c.len := hfront.trans htext
    have hlen := (cut_last_inj (by decide) (not_mem_toDigits (by decide)) hcut).2
    have hnumber := congrArg (number 2) hlen
    rw [number_toDigits (by omega) (by have := c.len_le; omega)] at hnumber
    exact (Option.some.inj (show some 32 = some c.len from hnumber)).symm
  · intro hlen
    rw [htext, hlen]
    exact ⟨_, rfl⟩

theorem shortCidr_render (c : Cidr) :
    shortCidr c.render = if c.len = 32 then String.ofList (FloppyGuard.intToIp c.base)
    else c.render := by
  rw [shortCidr, canonCidr_render]
  by_cases hlen : c.len = 32
  · rw [if_pos (slash_suffix_iff.mpr hlen), if_pos hlen, Cidr.render, String.toList_ofList,
      Cidr.toText, hlen]
    refine congrArg String.ofList ?_
    have hlength : (FloppyGuard.intToIp c.base ++ '/' :: Nat.toDigits 10 32).length - 3 =
        (FloppyGuard.intToIp c.base).length := by
      rw [List.length_append]
      exact Nat.add_sub_cancel _ _
    rw [hlength, List.take_left]
  · rw [if_neg (mt slash_suffix_iff.mp hlen), if_neg hlen]

theorem isSpace_of_mem_intToIp {y : Ip} : ∀ d ∈ FloppyGuard.intToIp y, isSpace d = false := by
  intro d hd
  rcases mem_intToIp hd with rfl | hd
  · decide
  · exact isSpace_eq_false_of_isDigit hd

theorem canonicalCidr_host (y : Ip) :
    canonicalCidr (String.ofList (FloppyGuard.intToIp y)) = some (.around y 32 le_rfl) := by
  have hslash : '/' ∉ FloppyGuard.intToIp y := by
    intro hc
    rcases mem_intToIp hc with hc | hc
    · cases hc
    · cases hc
  have hne : FloppyGuard.intToIp y ≠ [] := by
    intro he
    have hread := ipToInt_intToIp y
    rw [he] at hread
    cases hread
  rw [canonicalCidr, String.toList_ofList, trim_of_forall isSpace_of_mem_intToIp]
  simp only [if_neg hne, List.splitOn_eq_singleton hslash, ipToInt_intToIp]
  rfl

theorem canonCidr_short (c : Cidr) : canonCidr (shortCidr c.render) = c.render := by
  rw [shortCidr_render]
  split
  · next hlen =>
    refine canonCidr_of_some ((canonicalCidr_host c.base).trans (congrArg some ?_))
    refine PrefixBlock.ext ?_ hlen.symm
    have hmask := c.masked
    rwa [hlen] at hmask
  · exact canonCidr_render c

theorem word_of_chars {t : List Char} (hne : t ≠ [])
    (ht : ∀ d ∈ t, d = '.' ∨ d = '/' ∨ d.isDigit = true) :
    Word (String.ofList t) := by
  refine ⟨fun he => hne ?_, fun d hd => ?_⟩
  · simpa using congrArg String.toList he
  rw [String.toList_ofList] at hd
  rcases ht d hd with rfl | rfl | hdigit
  · decide
  · decide
  · have hcomma : d ≠ ',' := fun he => by simp [he] at hdigit
    have hsemi : d ≠ ';' := fun he => by simp [he] at hdigit
    simp [isSeparator, isSpace_eq_false_of_isDigit hdigit, hcomma, hsemi]

theorem word_short (c : Cidr) : Word (shortCidr c.render) := by
  rw [shortCidr_render]
  split
  · refine word_of_chars (fun he => ?_) fun d hd => (mem_intToIp hd).imp_right .inr
    have hread := ipToInt_intToIp c.base
    rw [he] at hread
    cases hread
  · exact word_of_chars (by simp [Cidr.toText]) fun d hd => mem_toText hd

/-! What a text names, and what a selection is written as. -/

/-- The canonical networks of a list. -/
def canonSet (value : String) : List String := (splitList value).map canonCidr

theorem mem_foldl_pushNew {xs acc : List String} : x ∈ xs.foldl pushNew acc ↔ x ∈ acc ∨ x ∈ xs := by
  induction xs generalizing acc with
  | nil => simp
  | cons y xs ih =>
    rw [List.foldl_cons, ih, pushNew]
    split
    · next hy => grind
    · simp [or_assoc]

/-- The networks of a selection come back as they are. -/
theorem mem_canonSet_emit (h : ∀ o ∈ opts, ∀ x ∈ o.cidrs, ∃ c : Cidr, x = c.render) :
    x ∈ canonSet (emit opts) ↔ ∃ o ∈ opts, x ∈ o.cidrs := by
  have hrender : ∀ y ∈ (opts.flatMap PickerOption.cidrs).foldl pushNew [], ∃ c : Cidr,
      y = c.render := by
    intro y hy
    rcases mem_foldl_pushNew.mp hy with hy | hy
    · cases hy
    · obtain ⟨o, ho, hy⟩ := List.mem_flatMap.mp hy
      exact h o ho y hy
  rw [canonSet, emit, splitList_join, List.map_map]
  · have hback : ∀ y ∈ (opts.flatMap PickerOption.cidrs).foldl pushNew [],
        (canonCidr ∘ shortCidr) y = y := by
      intro y hy
      obtain ⟨c, rfl⟩ := hrender y hy
      rw [Function.comp_apply, canonCidr_short]
    rw [List.map_congr_left hback, List.map_id', mem_foldl_pushNew, List.mem_flatMap]
    simp
  · intro s hs
    obtain ⟨y, hy, rfl⟩ := List.mem_map.mp hs
    obtain ⟨c, rfl⟩ := hrender y hy
    exact word_short c

/-! The loop over the candidates. -/

/-- What is claimed is in the list and belongs to the chosen entries, no two of which share a
network. -/
structure Claims.Ok (index : List String) (c : Claims) : Prop where
  claimed : ∀ x, x ∈ c.claimed ↔ ∃ e ∈ c.chosen.map Prod.fst, x ∈ e.canon
  listed : ∀ x ∈ c.claimed, x ∈ index
  disjoint : (c.chosen.map Prod.fst).Pairwise fun a b => ∀ x ∈ a.canon, x ∉ b.canon

theorem claims_none : Claims.none.Ok index :=
  ⟨by simp [Claims.none], by simp [Claims.none], List.Pairwise.nil⟩

theorem claims_add (h : claims.Ok index) : (claims.add index e).Ok index := by
  unfold Claims.add
  split
  · exact h
  split
  · exact h
  · next hall =>
    split
    · exact h
    · next hfree =>
      rw [not_not] at hall
      simp only [not_exists, not_and] at hfree
      refine ⟨fun x => ?_, fun x hx => ?_, ?_⟩
      · have hclaimed := h.claimed x
        simp only [List.mem_append, List.map_append, List.map_cons, List.map_nil,
          List.mem_singleton]
        rw [hclaimed]
        constructor
        · rintro (⟨a, ha, hx⟩ | hx)
          · exact ⟨a, .inl ha, hx⟩
          · exact ⟨e, .inr rfl, hx⟩
        · rintro ⟨a, ha | rfl, hx⟩
          · exact .inl ⟨a, ha, hx⟩
          · exact .inr hx
      · rcases List.mem_append.mp hx with hx | hx
        · exact h.listed x hx
        · exact hall x hx
      · rw [List.map_append, List.pairwise_append]
        refine ⟨h.disjoint, List.pairwise_singleton _ _, fun a ha b hb x hx hxb => ?_⟩
        obtain rfl : b = e := by simpa using hb
        exact hfree x hxb ((h.claimed x).mpr ⟨a, ha, hx⟩)

theorem claims_foldl (h : claims.Ok index) : (es.foldl (Claims.add index) claims).Ok index := by
  induction es generalizing claims with
  | nil => exact h
  | cons e es ih => exact ih (claims_add h)

theorem claims_ok : ((candidates entries).foldl (Claims.add index) .none).Ok index :=
  claims_foldl claims_none

/-- The rest of the CIDRs looked at so far. -/
structure RestOk (claimed done : List String) (acc : List String × List String) : Prop where
  seen : ∀ x, x ∈ acc.1 ↔ x ∈ acc.2.map canonCidr
  free : ∀ raw ∈ acc.2, canonCidr raw ∉ claimed
  given : ∀ raw ∈ acc.2, raw ∈ done
  covers : ∀ raw ∈ done, canonCidr raw ∈ claimed ∨ canonCidr raw ∈ acc.2.map canonCidr
  nodup : (acc.2.map canonCidr).Nodup

variable {claimed done : List String} {acc : List String × List String} {raw : String}

theorem restOk_add (h : RestOk claimed done acc) (raw : String) :
    RestOk claimed (done ++ [raw]) (addRest claimed acc raw) := by
  unfold addRest
  split
  · next hknown =>
    rw [h.seen] at hknown
    refine ⟨h.seen, h.free, fun r hr => List.mem_append_left _ (h.given r hr), fun r hr => ?_,
      h.nodup⟩
    rcases List.mem_append.mp hr with hr | hr
    · exact h.covers r hr
    · obtain rfl := List.mem_singleton.mp hr
      exact hknown
  · next hnew =>
    obtain ⟨hfree, hunseen⟩ := not_or.mp hnew
    rw [h.seen] at hunseen
    refine ⟨fun x => ?_, fun r hr => ?_, fun r hr => ?_, fun r hr => ?_, ?_⟩
    · have hseen := h.seen x
      simp only [List.mem_cons, List.map_append, List.map_cons, List.map_nil, List.mem_append,
        List.not_mem_nil, or_false]
      rw [hseen]
      exact Or.comm
    · rcases List.mem_append.mp hr with hr | hr
      · exact h.free r hr
      · exact List.mem_singleton.mp hr ▸ hfree
    · rcases List.mem_append.mp hr with hr | hr
      · exact List.mem_append_left _ (h.given r hr)
      · exact List.mem_append_right _ hr
    · rw [List.map_append, List.mem_append]
      rcases List.mem_append.mp hr with hr | hr
      · exact (h.covers r hr).imp_right .inl
      · exact .inr (.inr (List.mem_singleton.mp hr ▸ List.mem_singleton_self _))
    · rw [List.map_append, List.map_singleton, List.nodup_append]
      refine ⟨h.nodup, List.nodup_singleton _, fun x hx y hy => ?_⟩
      rintro rfl
      exact hunseen (List.mem_singleton.mp hy ▸ hx)

theorem restOk_foldl (h : RestOk claimed done acc) :
    RestOk claimed (done ++ cidrs) (cidrs.foldl (addRest claimed) acc) := by
  induction cidrs generalizing done acc with
  | nil => simpa using h
  | cons raw cidrs ih => simpa using ih (restOk_add h raw)

theorem restOk_all : RestOk claimed cidrs (cidrs.foldl (addRest claimed) ([], [])) := by
  have hnone : RestOk claimed [] ([], []) := ⟨by simp, by simp, by simp, by simp, List.nodup_nil⟩
  exact restOk_foldl hnone

/-- The chosen entries and the rest are the networks of the list, each in one place. -/
structure Partition (cidrs : List String) (r : Collapsed) : Prop where
  disjoint : r.entries.Pairwise fun a b => ∀ x ∈ a.canon, x ∉ b.canon
  apart : ∀ e ∈ r.entries, ∀ raw ∈ r.rest, canonCidr raw ∉ e.canon
  once : (r.rest.map canonCidr).Nodup
  union : ∀ x, (∃ e ∈ r.entries, x ∈ e.canon) ∨ x ∈ r.rest.map canonCidr ↔ x ∈ cidrs.map canonCidr

theorem partition_collapseCidrs : Partition cidrs (collapseCidrs cidrs entries) := by
  have hclaims : ((candidates entries).foldl (Claims.add (cidrs.map canonCidr)) .none).Ok
      (cidrs.map canonCidr) := claims_ok
  have hrest : ∀ claimed, RestOk claimed cidrs (cidrs.foldl (addRest claimed) ([], [])) :=
    fun _ => restOk_all
  replace hrest :=
    hrest ((candidates entries).foldl (Claims.add (cidrs.map canonCidr)) .none).claimed
  rw [collapseCidrs]
  generalize (candidates entries).foldl (Claims.add (cidrs.map canonCidr)) .none = claims
    at hclaims hrest ⊢
  have hperm : ((claims.chosen.mergeSort fun a b => decide (a.2 ≤ b.2)).map Prod.fst).Perm
      (claims.chosen.map Prod.fst) :=
    (List.mergeSort_perm _ _).map _
  have hentries : ∀ x, x ∈ claims.claimed ↔
      ∃ e ∈ (claims.chosen.mergeSort fun a b => decide (a.2 ≤ b.2)).map Prod.fst, x ∈ e.canon := by
    intro x
    rw [hclaims.claimed]
    exact exists_congr fun e => and_congr_left' hperm.mem_iff.symm
  refine ⟨?_, fun e he raw hraw hx => ?_, hrest.nodup, fun x => ?_⟩
  · refine (hperm.pairwise_iff fun {a b} hab x hx hxa => ?_).mpr hclaims.disjoint
    exact hab x hxa hx
  · exact hrest.free raw hraw ((hentries _).mpr ⟨e, he, hx⟩)
  · rw [← hentries]
    constructor
    · rintro (hx | hx)
      · exact hclaims.listed x hx
      · obtain ⟨raw, hraw, rfl⟩ := List.mem_map.mp hx
        exact List.mem_map_of_mem (hrest.given raw hraw)
    · intro hx
      obtain ⟨raw, hraw, rfl⟩ := List.mem_map.mp hx
      exact hrest.covers raw hraw

/-! The picker of addresses. -/

def Listed (value : String) : Prop := ∀ s ∈ splitList value, isIpv4OrCidr s = true

theorem canonSet_render (h : Listed value) (hx : x ∈ canonSet value) :
    ∃ c : Cidr, x = c.render := by
  obtain ⟨s, hs, rfl⟩ := List.mem_map.mp hx
  obtain ⟨c, hc⟩ := canonicalCidr_of_valid (word_of_mem_splitList hs) (h s hs)
  exact ⟨c, canonCidr_of_some hc⟩

theorem mem_cidrs_selected : (∃ o ∈ selected value entries, x ∈ o.cidrs) ↔ x ∈ canonSet value := by
  have hpart : Partition (splitList value) (collapseCidrs (splitList value) entries) :=
    partition_collapseCidrs
  have hunion := hpart.union x
  rw [canonSet, ← hunion]
  simp only [selected, List.mem_append, or_and_right, exists_or, List.mem_map]
  refine or_congr ?_ ?_
  · simp [PickerEntry.option]
  · simp [cidrOption, eq_comm]

/-- No two shown options share a network. -/
theorem disjoint_selected :
    (selected value entries).Pairwise fun a b => ∀ x ∈ a.cidrs, x ∉ b.cidrs := by
  have hpart : Partition (splitList value) (collapseCidrs (splitList value) entries) :=
    partition_collapseCidrs
  rw [selected, List.pairwise_append, List.pairwise_map, List.pairwise_map]
  refine ⟨hpart.disjoint, ?_, fun a ha b hb x hx hxb => ?_⟩
  · refine (List.pairwise_map.mp hpart.once).imp fun {a b} hne x hx hxb => ?_
    exact hne ((List.mem_singleton.mp hx).symm.trans (List.mem_singleton.mp hxb))
  · obtain ⟨e, he, rfl⟩ := List.mem_map.mp ha
    obtain ⟨raw, hraw, rfl⟩ := List.mem_map.mp hb
    obtain rfl := List.mem_singleton.mp hxb
    exact hpart.apart e he raw hraw hx

theorem mem_canonSet_of_sublist (h : Listed value) {opts : List PickerOption}
    (hsub : ∀ o ∈ opts, o ∈ selected value entries) :
    x ∈ canonSet (emit opts) ↔ ∃ o ∈ opts, x ∈ o.cidrs := by
  refine mem_canonSet_emit fun o ho x hx => ?_
  exact canonSet_render h (mem_cidrs_selected.mp ⟨o, hsub o ho, hx⟩)

/-! The picker of ports. -/

/-- Presets with different ids, and only `all` has no ports. -/
structure PresetList where
  presets : List Preset
  nodup : (presets.map Preset.id).Nodup
  all : ∀ p ∈ presets, p.ports = [] ↔ p.id = "all"

variable {ports out : List Port} {p q : Port} {presets : List Preset} {l : PresetList}

theorem find_of_mem {preset : Preset} (hnd : (presets.map Preset.id).Nodup) (h : preset ∈ presets) :
    presets.find? (·.id = preset.id) = some preset := by
  induction presets with
  | nil => cases h
  | cons r presets ih =>
    rw [List.map_cons, List.nodup_cons] at hnd
    rcases List.mem_cons.mp h with rfl | h
    · simp
    · have hne : ¬ r.id = preset.id := fun he => hnd.1 (he ▸ List.mem_map_of_mem h)
      simpa [hne] using ih hnd.2 h

/-- The key of a sanitized port is that of no other port. -/
theorem eq_of_portKey (hp : PortOk p) (h : portKey q = portKey p) : q = p := by
  have hjoin : q.proto.toList ++ '/' :: q.port.toList = p.proto.toList ++ '/' :: p.port.toList := by
    simpa [portKey] using congrArg String.toList h
  have hclean : '/' ∉ p.proto.toList ∧ '/' ∉ p.port.toList := by
    have hparts := not_mem_of_mem_splitOn (a := '/') (s := (portKey p).toList)
    rw [splitOn_portKey hp] at hparts
    exact ⟨hparts _ List.mem_cons_self, hparts _ (List.mem_cons_of_mem _ List.mem_cons_self)⟩
  have hcount := congrArg (List.count '/') hjoin
  rw [List.count_append, List.count_append, List.count_cons_self, List.count_cons_self,
    List.count_eq_zero_of_not_mem hclean.1,
    List.count_eq_zero_of_not_mem hclean.2] at hcount
  have hproto : '/' ∉ q.proto.toList := List.count_eq_zero.mp (by omega)
  obtain ⟨hsame, hport⟩ := cut_inj hproto hclean.1 hjoin
  obtain ⟨qproto, qport⟩ := q
  obtain ⟨pproto, pport⟩ := p
  obtain rfl : qproto = pproto := String.toList_inj.mp hsame
  obtain rfl : qport = pport := String.toList_inj.mp hport
  rfl

theorem mem_addPort (hok : ∀ q ∈ out ++ [p], PortOk q) : q ∈ addPort out p ↔ q ∈ out ∨ q = p := by
  unfold addPort
  split
  · next hseen =>
    obtain ⟨r, hr, he⟩ := List.mem_map.mp hseen
    have hpr : r = p := eq_of_portKey (hok p (by simp)) he
    constructor
    · exact .inl
    · rintro (hq | rfl)
      · exact hq
      · exact hpr ▸ hr
  · simp

theorem mem_foldl_addPort {xs : List Port} (hok : ∀ q ∈ out ++ xs, PortOk q) :
    q ∈ xs.foldl addPort out ↔ q ∈ out ∨ q ∈ xs := by
  induction xs generalizing out with
  | nil => simp
  | cons p xs ih =>
    have hfirst : ∀ r ∈ out ++ [p], PortOk r := fun r hr => hok r (by grind)
    have hrest : ∀ r ∈ addPort out p ++ xs, PortOk r := by
      intro r hr
      rcases List.mem_append.mp hr with hr | hr
      · exact hfirst r (by simpa using (mem_addPort hfirst).mp hr)
      · exact hok r (by simp [hr])
    rw [List.foldl_cons, ih hrest, mem_addPort hfirst, List.mem_cons, or_assoc]

theorem mem_of_wholePresets (hports : ∀ p ∈ ports, PortOk p) {preset : Preset}
    (h : preset ∈ wholePresets ports presets)
    (hp : p ∈ preset.ports) : p ∈ ports := by
  obtain ⟨-, hall⟩ := List.mem_filter.mp h
  simp only [ne_eq, decide_not, Bool.and_eq_true, List.all_eq_true, decide_eq_true_eq] at hall
  obtain ⟨r, hr, he⟩ := List.mem_map.mp (hall.2 p hp)
  exact eq_of_portKey (hports r hr) he.symm ▸ hr

theorem id_of_wholePresets {preset : Preset} (h : preset ∈ wholePresets ports l.presets) :
    preset.id ≠ "all" := by
  obtain ⟨hmem, hall⟩ := List.mem_filter.mp h
  intro hid
  have hempty := (l.all preset hmem).mpr hid
  simp [hempty] at hall

theorem portsToPresetSelection_eq (hne : ports ≠ []) : portsToPresetSelection ports presets =
    ⟨(wholePresets ports presets).map Preset.id, formatPorts (ports.filter fun p =>
      portKey p ∉ (wholePresets ports presets).flatMap fun preset => preset.ports.map portKey)⟩ :=
  if_neg hne

/-- The ports of the chosen presets. -/
theorem ports_of_ids {chosen : List Preset} (hsub : ∀ preset ∈ chosen, preset ∈ l.presets) :
    ((chosen.map Preset.id).flatMap fun id => ((l.presets.find? (·.id = id)).map Preset.ports).getD
      []) =
      chosen.flatMap Preset.ports := by
  rw [List.flatMap_map]
  refine List.flatMap_congr fun preset hpreset => ?_
  rw [find_of_mem l.nodup (hsub preset hpreset)]
  rfl

theorem selection_round_trip (hports : ∀ p ∈ ports, PortOk p) : p ∈ selectionToPorts
    (portsToPresetSelection ports l.presets).presetIds
    (portsToPresetSelection ports l.presets).custom l.presets ↔ p ∈ ports := by
  by_cases hne : ports = []
  · subst hne
    rw [portsToPresetSelection, if_pos rfl]
    by_cases hall : ∃ p ∈ l.presets, p.id = "all"
    · simp [selectionToPorts, hall]
    · rw [if_neg hall, selectionToPorts, if_neg List.not_mem_nil]
      have hnone : (parsePorts "").ports = [] := rfl
      simp [hnone]
  · rw [portsToPresetSelection_eq hne]
    dsimp only
    have hkept : ∀ q ∈ ports.filter fun p =>
        portKey p ∉ (wholePresets ports l.presets).flatMap fun preset => preset.ports.map portKey,
          PortOk q :=
      fun q hq => hports q (List.mem_of_mem_filter hq)
    have hnotall : "all" ∉ (wholePresets ports l.presets).map Preset.id := by
      intro h
      obtain ⟨preset, hpreset, hid⟩ := List.mem_map.mp h
      exact id_of_wholePresets hpreset hid
    have hsub : ∀ preset ∈ wholePresets ports l.presets, preset ∈ l.presets :=
      fun preset hpreset => List.mem_of_mem_filter hpreset
    rw [selectionToPorts, if_neg hnotall, ports_of_ids hsub, parsePorts_formatPorts hkept,
      mem_foldl_addPort]
    · rw [List.mem_append, List.mem_flatMap, List.mem_filter]
      constructor
      · rintro (hp | ⟨preset, hpreset, hp⟩ | ⟨hp, -⟩)
        · cases hp
        · exact mem_of_wholePresets hports hpreset hp
        · exact hp
      · intro hp
        by_cases hused : portKey p ∈ (wholePresets ports l.presets).flatMap fun preset =>
          preset.ports.map portKey
        · obtain ⟨preset, hpreset, hkey⟩ := List.mem_flatMap.mp hused
          obtain ⟨q, hq, he⟩ := List.mem_map.mp hkey
          obtain rfl := eq_of_portKey (hports p hp) he
          exact .inr (.inl ⟨preset, hpreset, hq⟩)
        · exact .inr (.inr ⟨hp, decide_eq_true hused⟩)
    · intro q hq
      rw [List.nil_append] at hq
      rcases List.mem_append.mp hq with hq | hq
      · obtain ⟨preset, hpreset, hq⟩ := List.mem_flatMap.mp hq
        exact hports q (mem_of_wholePresets hports hpreset hq)
      · exact hkept q hq

/-- What the pickers make of a list and of ports that they only show. -/
structure ChangesNothing (value : String) (entries : List PickerEntry) (ports : List Port)
    (presets : List Preset) : Prop where
  partition : Partition (splitList value) (collapseCidrs (splitList value) entries)
  unchanged : ∀ x, x ∈ canonSet (emit (selected value entries)) ↔ x ∈ canonSet value
  removed : ∀ pre o post, selected value entries = pre ++ o :: post →
    ∀ x, x ∈ canonSet (emit (pre ++ post)) ↔ x ∈ canonSet value ∧ x ∉ o.cidrs
  ports : ∀ p, p ∈ selectionToPorts (portsToPresetSelection ports presets).presetIds
    (portsToPresetSelection ports presets).custom presets ↔ p ∈ ports

/-- The pickers change nothing that they only show. -/
theorem pickers_change_nothing (hlist : Listed value) (hports : ∀ p ∈ ports, PortOk p) :
    ChangesNothing value entries ports l.presets where
  partition := partition_collapseCidrs
  unchanged x := (mem_canonSet_of_sublist hlist fun _ ho => ho).trans mem_cidrs_selected
  removed pre o post hsel x := by
    have hsub : ∀ a ∈ pre ++ post, a ∈ selected value entries := by
      intro a ha
      rw [hsel]
      rcases List.mem_append.mp ha with ha | ha
      · exact List.mem_append_left _ ha
      · exact List.mem_append_right _ (List.mem_cons_of_mem o ha)
    have hdisjoint : (selected value entries).Pairwise fun a b => ∀ x ∈ a.cidrs, x ∉ b.cidrs :=
      disjoint_selected
    have hvalue : (∃ o ∈ selected value entries, x ∈ o.cidrs) ↔ x ∈ canonSet value :=
      mem_cidrs_selected
    rw [hsel, List.pairwise_append, List.pairwise_cons] at hdisjoint
    obtain ⟨-, ⟨hpost, -⟩, hpre⟩ := hdisjoint
    rw [mem_canonSet_of_sublist hlist hsub, ← hvalue, hsel]
    constructor
    · rintro ⟨a, ha, hx⟩
      rcases List.mem_append.mp ha with ha | ha
      · exact ⟨⟨a, List.mem_append_left _ ha, hx⟩, hpre a ha o List.mem_cons_self x hx⟩
      · exact ⟨⟨a, List.mem_append_right _ (List.mem_cons_of_mem o ha), hx⟩, fun ho =>
          hpost a ha x ho hx⟩
    · rintro ⟨⟨a, ha, hx⟩, hnot⟩
      rcases List.mem_append.mp ha with ha | ha
      · exact ⟨a, List.mem_append_left _ ha, hx⟩
      rcases List.mem_cons.mp ha with rfl | ha
      · exact absurd hx hnot
      · exact ⟨a, List.mem_append_right _ ha, hx⟩
  ports _ := selection_round_trip hports

/-- A site of two networks and one of them alone, with the presets of the hub. -/
def samplePresets : PresetList :=
  ⟨[⟨"web", [⟨"tcp", "80"⟩, ⟨"tcp", "443"⟩]⟩, ⟨"all", []⟩], by decide, by decide⟩

theorem pickers_change_nothing_sample : ChangesNothing "192.168.20.0/24, 10.10.0.5, 192.168.21.7/24"
    [⟨"net", ["192.168.20.0/24"]⟩, ⟨"site", ["192.168.20.0/24", "192.168.21.0/24"]⟩]
    [⟨"tcp", "443"⟩, ⟨"udp", "8000:8010"⟩]
    samplePresets.presets := by
  refine pickers_change_nothing (fun s hs => ?_) fun p hp => ?_
  · have hsplit : splitList "192.168.20.0/24, 10.10.0.5, 192.168.21.7/24" =
        ["192.168.20.0/24", "10.10.0.5", "192.168.21.7/24"] := by
      decide +kernel
    rw [hsplit] at hs
    revert s
    decide +kernel
  · simp only [List.mem_cons, List.not_mem_nil, or_false] at hp
    rcases hp with rfl | rfl
    · exact ⟨by decide, 443, 443, by decide, by decide, by decide, by decide⟩
    · exact ⟨by decide, 8000, 8010, by decide, by decide, by decide, by decide⟩

end FloppyGuard.Ingress.Form
