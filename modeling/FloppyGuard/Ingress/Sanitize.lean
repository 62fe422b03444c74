import FloppyGuard.Ingress.Size
import FloppyGuard.Ingress.Store

/-! What `sanitizeIngressRule` leaves behind, and that it accepts its own output. -/
namespace FloppyGuard.Ingress

open Checked

variable {d : RulePayload} {patch : RulePatch} {r : Rule} {field : String}
  {allowEmpty isPartial : Bool}
  {out xs : List String} {ps : List Port} {p : Port} {a b : ℕ}

/-- A sanitized list of addresses: canonical texts, each once. -/
structure CidrTexts (xs : List String) : Prop where
  nodup : xs.Nodup
  short : xs.length ≤ maxList
  canonical : ∀ s ∈ xs, ∃ c : Cidr, s = c.render

structure PortOk (p : Port) : Prop where
  proto : p.proto ∈ ingressProtos
  range : ∃ a b, 1 ≤ a ∧ a ≤ b ∧ b ≤ 65535 ∧ p.port = portText a b

structure PortTexts (ps : List Port) : Prop where
  nodup : ps.Nodup
  short : ps.length ≤ maxList
  valid : ∀ p ∈ ps, PortOk p

/-- A clean name that begins with something visible. -/
structure NameOk (name : String) : Prop where
  nonempty : name ≠ ""
  clean : ∀ c ∈ name.toList, isControl c = false
  visible : ∀ c ∈ name.toList.head?, Text.isSpace c = false

section Collect
variable {α β : Type} [DecidableEq β] {entry : α → Except String β} {raws : List α}
  {cs acc : List β}

theorem collect_length
    (h : raws.foldlM (fun out raw => (entry raw).map (pushNew out)) acc = .ok cs) :
    cs.length ≤ acc.length + raws.length := by
  induction raws generalizing acc with
  | nil =>
    obtain rfl : acc = cs := Except.ok.inj h
    simp
  | cons raw raws ih =>
    rw [List.foldlM_cons, bind_eq_ok] at h
    obtain ⟨t, ht, h⟩ := h
    obtain ⟨c, -, rfl⟩ := map_eq_ok.mp ht
    have hlen := ih h
    have hpush : (pushNew acc c).length ≤ acc.length + 1 := by
      unfold pushNew
      split <;> simp
    rw [List.length_cons]
    omega

/-- What the collecting loop returns: values of entries, each once, no more than entries. -/
theorem collectNew_spec (h : collectNew entry raws = .ok cs) :
    cs.Nodup ∧ cs.length ≤ raws.length ∧ ∀ c ∈ cs, ∃ raw ∈ raws, entry raw = .ok c := by
  have hinv : cs.Nodup ∧ ∀ c ∈ cs, ∃ raw ∈ raws, entry raw = .ok c := by
    refine foldlM_invariant (P := fun cs => cs.Nodup ∧ ∀ c ∈ cs, ∃ raw ∈ raws, entry raw = .ok c) ?_
      ⟨List.nodup_nil, by simp⟩ h
    rintro acc raw t hraw ht ⟨hnd, hin⟩
    obtain ⟨c, hc, rfl⟩ := map_eq_ok.mp ht
    unfold pushNew
    split
    · exact ⟨hnd, hin⟩
    · rename_i hnew
      refine ⟨List.nodup_append.mpr ⟨hnd, List.nodup_singleton c, ?_⟩, ?_⟩
      · intro x hx y hy hxy
        exact hnew (List.mem_singleton.mp hy ▸ hxy ▸ hx)
      · intro e he
        rcases List.mem_append.mp he with he | he
        · exact hin e he
        · exact ⟨raw, hraw, List.mem_singleton.mp he ▸ hc⟩
  exact ⟨hinv.1, by simpa using collect_length h, hinv.2⟩

/-- Values sent again, each once, are returned as they are. -/
theorem collectNew_self {send : β → α} (hs : ∀ c ∈ cs, entry (send c) = .ok c) (hnd : cs.Nodup) :
    collectNew entry (cs.map send) = .ok cs := by
  have hfold (acc cs : List β) (hs : ∀ c ∈ cs, entry (send c) = .ok c) (hnd : (acc ++ cs).Nodup) :
      (cs.map send).foldlM (fun out raw => (entry raw).map (pushNew out)) acc =
        .ok (acc ++ cs) := by
    induction cs generalizing acc with
    | nil => simp [pure, Except.pure]
    | cons c cs ih =>
      have hnew : c ∉ acc := fun hc => (List.nodup_append.mp hnd).2.2 c hc c (by simp) rfl
      have hpush : (entry (send c)).map (pushNew acc) = .ok (acc ++ [c]) := by
        rw [hs c (by simp), Except.map, pushNew, if_neg hnew]
      rw [List.map_cons, List.foldlM_cons, hpush]
      have := ih (acc ++ [c]) (fun e he => hs e (by simp [he])) (by simpa using hnd)
      simpa [bind, Except.bind] using this
  exact hfold [] cs hs (by simpa using hnd)

end Collect

/-! Address lists. -/

theorem cidrEntry_render (c : Cidr) : cidrEntry field c.render = .ok c.render := by
  simp [cidrEntry]

theorem cidrTexts_nil : CidrTexts [] := ⟨List.nodup_nil, Nat.zero_le _, by simp⟩

theorem nonEmpty_ok (h : nonEmpty field allowEmpty xs = .ok out) :
    out = xs ∧ (allowEmpty = false → out ≠ []) := by
  unfold nonEmpty at h
  split at h
  · cases h
  · rename_i hne
    obtain rfl := Except.ok.inj h
    exact ⟨rfl, fun ha => by simpa [ha] using hne⟩

theorem sanitizeCidrList_ok {input : Field (JsonList String)}
    (h : sanitizeCidrList field input allowEmpty = .ok out) :
    CidrTexts out ∧ (allowEmpty = false → out ≠ []) := by
  unfold sanitizeCidrList at h
  split at h
  · obtain ⟨rfl, hne⟩ := nonEmpty_ok h
    exact ⟨cidrTexts_nil, hne⟩
  · obtain ⟨rfl, hne⟩ := nonEmpty_ok h
    exact ⟨cidrTexts_nil, hne⟩
  · cases h
  · split at h
    · cases h
    · rename_i value hlen
      obtain ⟨cs, hcs, h⟩ := bind_eq_ok.mp h
      obtain ⟨rfl, hne⟩ := nonEmpty_ok h
      obtain ⟨hnd, hle, hin⟩ := collectNew_spec hcs
      refine ⟨⟨hnd, by omega, fun s hs => ?_⟩, hne⟩
      obtain ⟨raw, -, hraw⟩ := hin s hs
      unfold cidrEntry at hraw
      split at hraw
      · cases hraw
      · exact ⟨_, (Except.ok.inj hraw).symm⟩

/-- A sanitized list passes again, unchanged. -/
theorem sanitizeCidrList_self (h : CidrTexts xs) (hne : allowEmpty = false → xs ≠ []) :
    sanitizeCidrList field (.value (.array xs)) allowEmpty = .ok xs := by
  have hcollect : collectNew (cidrEntry field) (xs.map id) = .ok xs := by
    refine collectNew_self (fun s hs => ?_) h.nodup
    obtain ⟨c, rfl⟩ := h.canonical s hs
    exact cidrEntry_render c
  rw [List.map_id] at hcollect
  have hempty : (!allowEmpty && xs.isEmpty) = false := by
    cases allowEmpty with
    | true => rfl
    | false => simpa using hne rfl
  simp only [sanitizeCidrList, if_neg (Nat.not_lt.mpr h.short), hcollect, Except.bind, nonEmpty,
    hempty]
  rfl

/-! Ports. -/

theorem portRange_portText (h1 : a ≤ b) (hb : b ≤ 65535) :
    portRange (portText a b).toList = some (a, b) := by
  have hcolon (n : ℕ) : ':' ∉ Nat.toDigits 10 n := Text.not_mem_toDigits (by decide)
  have hnumber (n : ℕ) (hn : n ≤ 65535) : Text.number 5 (Nat.toDigits 10 n) = some n :=
    Text.number_toDigits (by omega) (by omega)
  unfold portText
  split
  · rename_i he
    subst he
    rw [decimal, String.toList_ofList, portRange, List.splitOn_eq_singleton (hcolon a)]
    simp [hnumber a hb]
  · have htext : (decimal a ++ ":" ++ decimal b).toList = Nat.toDigits 10 a ++ ':' ::
        Nat.toDigits 10 b := by
      simp [decimal]
    rw [htext, portRange, List.splitOn_append_cons_self_of_not_mem (hcolon a),
      List.splitOn_eq_singleton (hcolon b)]
    simp [hnumber a (by omega), hnumber b hb]

theorem mem_portText {c : Char} (h : c ∈ (portText a b).toList) : c = ':' ∨ c.isDigit := by
  unfold portText at h
  split at h
  · exact Or.inr (Text.mem_toDigits_isDigit (by simpa [decimal] using h))
  · simp only [decimal, String.toList_append, String.toList_ofList, List.mem_append] at h
    rcases h with (h | h) | h
    · exact Or.inr (Text.mem_toDigits_isDigit h)
    · exact Or.inl (List.mem_singleton.mp h)
    · exact Or.inr (Text.mem_toDigits_isDigit h)

theorem dash_portText :
    (portText a b).toList.map (fun c => if c = '-' then ':' else c) = (portText a b).toList := by
  rw [List.map_congr_left fun c hc => ?_, List.map_id]
  rcases mem_portText hc with rfl | hd
  · rfl
  · rw [if_neg fun he => by simp [he] at hd]
    rfl

theorem requestedRange_portText (h1 : a ≤ b) (hb : b ≤ 65535) :
    requestedRange (portText a b).toList = some (a, b) := by
  rw [requestedRange, dash_portText, portRange_portText h1 hb]

theorem isSpace_of_mem_portText {c : Char} (h : c ∈ (portText a b).toList) :
    Text.isSpace c = false := by
  rcases mem_portText h with rfl | hd
  · decide
  · exact Text.isSpace_eq_false_of_isDigit hd

theorem toLower_of_mem_protos {proto : String} (h : proto ∈ ingressProtos) :
    String.ofList (proto.toList.map Char.toLower) = proto := by
  simp only [ingressProtos, List.mem_cons, List.not_mem_nil, or_false] at h
  rcases h with rfl | rfl <;> decide

theorem portEntry_ok {raw : PortEntry} (h : portEntry raw = .ok p) : PortOk p := by
  unfold portEntry at h
  dsimp only at h
  split at h
  · cases h
  · rename_i hproto
    split at h
    · cases h
    · rename_i first last _
      split at h
      · cases h
      · rename_i hrange
        rw [← Except.ok.inj h]
        exact ⟨not_not.mp hproto, first, last, by omega, by omega, by omega, rfl⟩

/-- The stored port, sent again. -/
def Port.entry (p : Port) : PortEntry := ⟨some p.proto, some p.port⟩

theorem portEntry_self (h : PortOk p) : portEntry p.entry = .ok p := by
  obtain ⟨hproto, a, b, ha, hab, hb, hport⟩ := h
  have htrim : Text.trim p.port.toList = p.port.toList :=
    Text.trim_of_forall fun c hc => isSpace_of_mem_portText (hport ▸ hc)
  have hrange : requestedRange p.port.toList = some (a, b) := hport ▸ requestedRange_portText hab hb
  simp only [portEntry, Port.entry, Option.getD_some, toLower_of_mem_protos hproto, htrim, hrange]
  rw [if_neg (not_not.mpr hproto), if_neg (by omega), ← hport]

theorem portTexts_nil : PortTexts [] := ⟨List.nodup_nil, Nat.zero_le _, by simp⟩

theorem sanitizePorts_ok {value : Field (JsonList PortEntry)} (h : sanitizePorts value = .ok ps) :
    PortTexts ps := by
  unfold sanitizePorts at h
  split at h
  · exact Except.ok.inj h ▸ portTexts_nil
  · exact Except.ok.inj h ▸ portTexts_nil
  · cases h
  · split at h
    · cases h
    · obtain ⟨hnd, hle, hin⟩ := collectNew_spec h
      refine ⟨hnd, by omega, fun p hp => ?_⟩
      obtain ⟨raw, -, hraw⟩ := hin p hp
      exact portEntry_ok hraw

theorem sanitizePorts_self (h : PortTexts ps) :
    sanitizePorts (.value (.array (ps.map Port.entry))) = .ok ps := by
  rw [sanitizePorts, if_neg (by simpa using h.short)]
  exact collectNew_self (fun p hp => portEntry_self (h.valid p hp)) h.nodup

/-! Names. -/

theorem sanitizeName_ok {value : Field String} {name : String} (h : sanitizeName value = .ok name) :
    NameOk name := by
  unfold sanitizeName at h
  split at h
  · cases h
  · rename_i hne
    obtain rfl := Except.ok.inj h
    cases value with
    | undefined => exact absurd rfl hne
    | null => exact absurd rfl hne
    | value s =>
      refine ⟨hne, fun c hc => ?_, fun c hc => ?_⟩
      · simp only [cleanText, String.toList_ofList] at hc
        rcases Text.mem_slice hc with hc | rfl
        · obtain ⟨d, -, rfl⟩ := List.mem_map.mp (Text.mem_of_mem_trim hc)
          split
          · decide
          · exact Bool.eq_false_iff.mpr ‹_›
        · decide
      · simp only [cleanText, String.toList_ofList, Text.head?_slice (show 2 ≤ nameMax by decide)]
          at hc
        exact Text.head?_trim c hc

/-- A stored name may lose the blanks at its end, nothing else. -/
theorem sanitizeName_self {name : String} (h : NameOk name) :
    ∃ name', sanitizeName (.value name) = .ok name' := by
  have hmap : name.toList.map (fun c => if isControl c then ' ' else c) = name.toList := by
    rw [List.map_congr_left fun c hc => ?_, List.map_id]
    rw [h.clean c hc]
    rfl
  obtain ⟨c, hc⟩ := List.isSome_head?.mpr (mt String.toList_eq_nil_iff.mp h.nonempty) |>
    Option.isSome_iff_exists.mp
  have htrim : Text.trim name.toList ≠ [] :=
    Text.trim_ne_nil (List.mem_of_mem_head? hc) (h.visible c hc)
  have hne : cleanText (.value name) nameMax ≠ "" := by
    intro he
    have hslice := congrArg (List.head? ∘ String.toList) he
    simp only [cleanText, hmap, Function.comp, String.toList_ofList,
      Text.head?_slice (show 2 ≤ nameMax by decide)] at hslice
    exact htrim (List.head?_eq_none_iff.mp hslice)
  exact ⟨_, if_neg hne⟩

/-! Whole requests. -/

/-- What a sanitized request leaves in the fields it gives. -/
structure Clean (patch : RulePatch) : Prop where
  name : ∀ name ∈ patch.name, NameOk name
  sources : ∀ xs ∈ patch.sources, CidrTexts xs ∧ xs ≠ []
  destinations : ∀ xs ∈ patch.destinations, CidrTexts xs
  ports : ∀ ps ∈ patch.ports, PortTexts ps

theorem whenGiven_full {α β : Type} {input : Field α} {clean : Except String β} {o : Option β} :
    whenGiven false input clean = .ok o ↔ ∃ b, clean = .ok b ∧ o = some b := by
  rw [whenGiven, Bool.false_and, if_neg Bool.false_ne_true, map_eq_ok]
  simp only [eq_comm]

theorem whenGiven_ok {α β : Type} {input : Field α} {clean : Except String β} {o : Option β}
    (h : whenGiven isPartial input clean = .ok o) : ∀ b ∈ o, clean = .ok b := by
  unfold whenGiven at h
  split at h
  · rw [← Except.ok.inj h]
    nofun
  · obtain ⟨b, hb, rfl⟩ := map_eq_ok.mp h
    rintro c ⟨⟩
    exact hb

theorem sanitizeIngressRule_eq_ok : sanitizeIngressRule d isPartial = .ok patch ↔
    ∃ name sources destinations ports enabled note,
      whenGiven isPartial d.name (sanitizeName d.name) = .ok name ∧
      whenGiven isPartial d.sources (sanitizeCidrList "sources" d.sources false) = .ok sources ∧
      whenGiven isPartial d.destinations (sanitizeCidrList "destinations" d.destinations true) =
        .ok destinations ∧
      whenGiven isPartial d.ports (sanitizePorts d.ports) = .ok ports ∧
      whenGiven isPartial d.enabled (.ok (sanitizeEnabled d.enabled)) = .ok enabled ∧
      whenGiven isPartial d.note (.ok (sanitizeNote d.note)) = .ok note ∧
      (isPartial = false →
        assertLineCount (lineCount (sources.getD []) (destinations.getD []) (ports.getD [])) =
          .ok ()) ∧
      patch = ⟨name, sources, destinations, ports, enabled, note⟩ := by
  simp only [sanitizeIngressRule, bind_eq_ok, @eq_comm _ patch]
  cases isPartial with
  | true => simp [pure, Except.pure]
  | false => simp [unit_bind_eq_ok, pure, Except.pure]

theorem sanitizeIngressRule_clean (h : sanitizeIngressRule d isPartial = .ok patch) :
    Clean patch := by
  obtain ⟨name, sources, destinations, ports, enabled, note, hn, hs, hd, hp, -, -, -, rfl⟩ :=
    sanitizeIngressRule_eq_ok.mp h
  constructor
  · exact fun b hb => sanitizeName_ok (whenGiven_ok hn b hb)
  · exact fun b hb => (sanitizeCidrList_ok (whenGiven_ok hs b hb)).imp id fun hne => hne rfl
  · exact fun b hb => (sanitizeCidrList_ok (whenGiven_ok hd b hb)).1
  · exact fun b hb => sanitizePorts_ok (whenGiven_ok hp b hb)

/-- A request for a whole rule passes when each field does and the product is small enough. -/
theorem sanitizeIngressRule_full : sanitizeIngressRule d false = .ok patch ↔
    ∃ name sources destinations ports, sanitizeName d.name = .ok name ∧
      sanitizeCidrList "sources" d.sources false = .ok sources ∧
      sanitizeCidrList "destinations" d.destinations true = .ok destinations ∧
      sanitizePorts d.ports = .ok ports ∧ lineCount sources destinations ports ≤ maxLinesPerRule ∧
      patch = ⟨some name, some sources, some destinations, some ports,
        some (sanitizeEnabled d.enabled),
        some (sanitizeNote d.note)⟩ := by
  rw [sanitizeIngressRule_eq_ok]
  simp only [whenGiven_full, assertLineCount_eq_ok, Except.ok.injEq, forall_const]
  constructor
  · rintro ⟨_, _, _, _, _, _, ⟨name, hn, rfl⟩, ⟨sources, hs, rfl⟩, ⟨destinations, hd, rfl⟩,
      ⟨ports, hp, rfl⟩,
      ⟨_, rfl, rfl⟩, ⟨_, rfl, rfl⟩, hl, rfl⟩
    exact ⟨name, sources, destinations, ports, hn, hs, hd, hp, hl, rfl⟩
  · rintro ⟨name, sources, destinations, ports, hn, hs, hd, hp, hl, rfl⟩
    exact ⟨_, _, _, _, _, _, ⟨name, hn, rfl⟩, ⟨sources, hs, rfl⟩, ⟨destinations, hd, rfl⟩,
      ⟨ports, hp, rfl⟩,
      ⟨_, rfl, rfl⟩, ⟨_, rfl, rfl⟩, hl, rfl⟩

/-! Stored rules. -/

/-- The targets of a rule as sanitized requests leave them. -/
structure Stored (r : Rule) : Prop where
  sources : CidrTexts r.sources
  nonempty : r.sources ≠ []
  destinations : CidrTexts r.destinations
  ports : PortTexts r.ports

theorem stored_row (id armedOn : ℕ) (h : sanitizeIngressRule d false = .ok patch) :
    Stored (patch.row id armedOn) := by
  have hc := sanitizeIngressRule_clean h
  obtain ⟨name, sources, destinations, ports, -, -, -, -, -, rfl⟩ := sanitizeIngressRule_full.mp h
  exact ⟨(hc.sources sources rfl).1, (hc.sources sources rfl).2, hc.destinations _ rfl,
    hc.ports _ rfl⟩

theorem Stored.merge (h : Stored r) (hc : Clean patch) : Stored (patch.merge r) := by
  have hgiven {α : Type} {P : α → Prop} {o : Option α} {x : α} (hx : P x) (ho : ∀ y ∈ o, P y) : P
      (o.getD x) := by
    cases o with
    | none => exact hx
    | some y => exact ho y rfl
  obtain ⟨hs, hne⟩ := hgiven ⟨h.sources, h.nonempty⟩ hc.sources
  exact ⟨hs, hne, hgiven h.destinations hc.destinations, hgiven h.ports hc.ports⟩

theorem exists_mapM (h : CidrTexts xs) : ∃ cs, xs.mapM canonicalCidr = some cs := by
  obtain ⟨-, -, hall⟩ := h
  induction xs with
  | nil => exact ⟨[], rfl⟩
  | cons s xs ih =>
    obtain ⟨c, rfl⟩ := hall s List.mem_cons_self
    obtain ⟨cs, hcs⟩ := ih fun s hs => hall s (List.mem_cons_of_mem _ hs)
    exact ⟨c :: cs, by simp [List.mapM_cons, hcs]⟩

theorem validPort_of_portOk (h : PortOk p) : validPort p = true := by
  obtain ⟨hproto, x, y, hx, hxy, hy, hport⟩ := h
  rw [validPort, hport, portRange_portText hxy hy]
  simpa using hproto

theorem usable_of_stored (h : Stored r) (hid : 1 ≤ r.id) :
    ∃ sources destinations, Usable r sources destinations := by
  obtain ⟨ss, hss⟩ := exists_mapM h.sources
  obtain ⟨ds, hds⟩ := exists_mapM h.destinations
  have hss0 : ss ≠ [] := by
    rw [← List.length_pos_iff, (length_of_mapM hss).2, List.length_pos_iff]
    exact h.nonempty
  exact ⟨ss, ds, hid, hss, hds, hss0, fun p hp => validPort_of_portOk (h.ports.valid p hp)⟩

end FloppyGuard.Ingress
