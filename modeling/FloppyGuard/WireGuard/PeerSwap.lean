import FloppyGuard.WireGuard.ConfPeers

/-! `_rewriteRotatedPeer`: one section changes, and with it the name of one peer. -/
namespace FloppyGuard.WireGuard

open Text

variable {conf out : List String} {pre post : List Section} {sec : Section} {l key old new : String}

/-- The text of a key is nowhere in the conf. -/
def FreshKey (key : String) (conf : List String) : Prop := ∀ l ∈ conf, ¬ key.toList <:+: l.toList

/-- A section with its key swapped: no preshared key, the new key where the old one was, and nothing
else. -/
structure Swapped (old new : String) (sec sec' : Section) : Prop where
  header : sec'.header = sec.header
  holds : sec'.holdsKey new = true
  psk : ∀ l ∈ sec'.lines, keyOf l ≠ "presharedkey".toList
  lines : sec'.lines = (sec.lines.filter (keyOf · ≠ "presharedkey".toList)).map fun l =>
    if isKeyLine old l then "PublicKey = " ++ new else l

/-- The section that is rotated, between the others. -/
structure FirstHolder (old : String) (conf : List String) (pre : List Section) (sec : Section)
    (post : List Section) : Prop where
  split : sections conf = pre ++ sec :: post
  holds : sec.holdsKey old = true
  first : ∀ s ∈ pre, s.holdsKey old = false

def renameKey (old new key : String) : String := if key = old then new else key

/-! The rotated section. -/

def Section.rotated (old new : String) (sec : Section) : Section where
  header := sec.header
  body := sec.body.filterMap (rotatedLine old new)
  headed := sec.headed
  plain l hl := by
    obtain ⟨m, hm, hrot⟩ := List.mem_filterMap.mp hl
    rcases rotatedLine_eq_some hrot with rfl | rfl
    · exact sec.plain _ hm
    · exact (plain_publicKey (T := new) new).1

theorem lines_rotated (sec : Section) :
    (sec.rotated old new).lines = sec.lines.filterMap (rotatedLine old new) := by
  have hhead : sec.header.toList.filterMap (rotatedLine old new) = sec.header.toList := by
    cases hheader : sec.header with
    | none => rfl
    | some head => simp [rotatedLine_header (sec.headed head hheader)]
  rw [Section.lines, Section.lines, List.filterMap_append, hhead]
  rfl

theorem foldl_rotateSection (secs : List Section) (out : List String) :
    secs.foldl (rotateSection old new) (true, out) = (true, out ++ secs.flatMap Section.lines) := by
  induction secs generalizing out with
  | nil => simp
  | cons sec secs ih => simp [rotateSection, ih]

theorem foldl_rotateSection_pre (h : ∀ s ∈ pre, s.holdsKey old = false) (out : List String) :
    pre.foldl (rotateSection old new) (false, out) = (false, out ++ pre.flatMap Section.lines) := by
  induction pre generalizing out with
  | nil => simp
  | cons sec pre ih =>
    have hsec := h sec List.mem_cons_self
    simp [rotateSection, hsec, ih fun s hs => h s (List.mem_cons_of_mem _ hs)]

theorem rewriteRotatedPeer_of_none (h : ∀ s ∈ sections conf, s.holdsKey old = false) :
    rewriteRotatedPeer conf old new = (false, conf) := by
  rw [rewriteRotatedPeer, foldl_rotateSection_pre h, List.nil_append, flatMap_sections]

theorem rewriteRotatedPeer_of_first (h : FirstHolder old conf pre sec post) :
    rewriteRotatedPeer conf old new =
      (true, (pre ++ sec.rotated old new :: post).flatMap Section.lines) := by
  rw [rewriteRotatedPeer, h.split, List.foldl_append, foldl_rotateSection_pre h.first,
    List.foldl_cons, rotateSection,
    if_pos (by simp [h.holds]), foldl_rotateSection]
  simp [lines_rotated]

theorem keyOf_newLine (new : String) : keyOf ("PublicKey = " ++ new) = "publickey".toList :=
  keyOf_of_publicKeyOf (publicKeyOf_line new)

theorem isKeyLine_newLine (hnew : trim new.toList = new.toList) :
    isKeyLine new ("PublicKey = " ++ new) = true := by
  have hval := (startsWith_of_publicKeyOf (publicKeyOf_line new)).2
  rw [trim_afterEq, String.toList_ofList, hnew] at hval
  rw [isKeyLine, keyOf_newLine, valOf, hval]
  simp

theorem isKeyLine_of_publicKeyOf (h : publicKeyOf l = some key) : isKeyLine key l = true := by
  have hval := (startsWith_of_publicKeyOf h).2
  rw [trim_afterEq] at hval
  rw [isKeyLine, keyOf_of_publicKeyOf h, valOf, hval]
  simp

theorem holdsKey_of_peerKey (h : sec.peerKey = some key) : sec.holdsKey key = true := by
  obtain ⟨hpeer, hkey, -⟩ := Section.peerKey_eq_some.mp h
  obtain ⟨l, hl, hkey⟩ := List.mem_filterMap.mp (List.mem_of_getLast? hkey)
  rw [Section.holdsKey, hpeer, Bool.true_and]
  exact List.any_eq_true.mpr ⟨l, List.mem_append_right _ hl, isKeyLine_of_publicKeyOf hkey⟩

theorem rotatedLine_of_keyLine (h : isKeyLine old l = true) :
    rotatedLine old new l = some ("PublicKey = " ++ new) := by
  have hkey : keyOf l = "publickey".toList := of_decide_eq_true (Bool.and_eq_true_iff.mp h).1
  rw [rotatedLine, if_neg (by rw [hkey]; decide), if_pos h]

theorem swapped_rotated (hnew : trim new.toList = new.toList) (hold : sec.holdsKey old = true) :
    Swapped old new sec (sec.rotated old new) := by
  obtain ⟨hpeer, hany⟩ := Bool.and_eq_true_iff.mp hold
  obtain ⟨l, hl, hkey⟩ := List.any_eq_true.mp hany
  refine ⟨rfl, ?_, ?_, ?_⟩
  · have hmem : "PublicKey = " ++ new ∈ (sec.rotated old new).lines := by
      rw [lines_rotated]
      exact List.mem_filterMap.mpr ⟨l, hl, rotatedLine_of_keyLine hkey⟩
    have hpeer' : (sec.rotated old new).isPeer = true := hpeer
    rw [Section.holdsKey, hpeer', Bool.true_and]
    exact List.any_eq_true.mpr ⟨_, hmem, isKeyLine_newLine hnew⟩
  · intro m hm
    rw [lines_rotated] at hm
    obtain ⟨l, -, hrot⟩ := List.mem_filterMap.mp hm
    unfold rotatedLine at hrot
    split at hrot
    · cases hrot
    · next hpsk =>
      split at hrot
      · rw [← Option.some.inj hrot, keyOf_newLine]
        decide
      · exact Option.some.inj hrot ▸ hpsk
  · rw [lines_rotated, ← List.filterMap_eq_map, List.filterMap_filter]
    refine List.filterMap_congr fun l _ => ?_
    rw [rotatedLine]
    split
    · next hpsk => simp [hpsk]
    · next hpsk =>
      rw [if_pos (decide_eq_true hpsk)]
      simp only [Function.comp_apply]
      split <;> rfl

theorem exists_firstHolder (h : (sections conf).any (·.holdsKey old) = true) :
    ∃ pre sec post, FirstHolder old conf pre sec post := by
  obtain ⟨sec, hfind⟩ :=
    Option.isSome_iff_exists.mp ((List.find?_isSome.trans List.any_eq_true.symm).mpr h)
  obtain ⟨hold, pre, post, hsplit, hpre⟩ := List.find?_eq_some_iff_append.mp hfind
  exact ⟨pre, sec, post, hsplit, hold, fun s hs => by simpa using hpre s hs⟩

/-- The other sections stay as they are. -/
theorem sections_rotated (h : FirstHolder old conf pre sec post) :
    sections (rewriteRotatedPeer conf old new).2 = pre ++ sec.rotated old new :: post := by
  obtain ⟨first, rest, heq, hfirst, hrest⟩ := sections_cons conf
  have hsplit := heq.symm.trans h.split
  rw [rewriteRotatedPeer_of_first h]
  cases pre with
  | nil =>
    -- what precedes the first header is no peer
    obtain ⟨rfl, -⟩ := List.cons.inj hsplit
    have hpeer := (Bool.and_eq_true_iff.mp h.holds).1
    rw [Section.isPeer, hfirst] at hpeer
    cases hpeer
  | cons p pre =>
    obtain ⟨rfl, rfl⟩ := List.cons.inj hsplit
    refine sections_flatMap hfirst fun s hs => ?_
    rcases List.mem_append.mp hs with hs | hs
    · exact hrest s (List.mem_append_left _ hs)
    · rcases List.mem_cons.mp hs with rfl | hs
      · exact hrest sec (List.mem_append_right _ List.mem_cons_self)
      · exact hrest s (List.mem_append_right _ (List.mem_cons_of_mem _ hs))

/-! The peers the parser reads. -/

theorem publicKeyOf_rotatedLine (hnew : trim new.toList = new.toList) (l : String) :
    (rotatedLine old new l).bind publicKeyOf = if isKeyLine old l then some new
    else publicKeyOf l := by
  by_cases hkey : isKeyLine old l = true
  · rw [rotatedLine_of_keyLine hkey, if_pos hkey, Option.bind_some, publicKeyOf_line, hnew,
      String.ofList_toList]
  · rw [rotatedLine, if_neg hkey, if_neg hkey]
    split
    · next hpsk =>
      cases hpub : publicKeyOf l with
      | none => rfl
      | some key =>
        have he := hpsk.symm.trans (keyOf_of_publicKeyOf hpub)
        exact absurd he (by decide)
    · rfl

theorem publicKey_rotated (hnew : trim new.toList = new.toList) (h : sec.publicKey = some old) :
    (sec.rotated old new).publicKey = some new := by
  have hbody : (sec.rotated old new).body.filterMap publicKeyOf =
      sec.body.filterMap fun l => if isKeyLine old l then some new else publicKeyOf l := by
    change (sec.body.filterMap (rotatedLine old new)).filterMap publicKeyOf = _
    rw [List.filterMap_filterMap]
    exact List.filterMap_congr fun l _ => publicKeyOf_rotatedLine hnew l
  rw [Section.publicKey, hbody]
  rw [Section.publicKey] at h
  -- the last line with a key has the old one, and the lines below it can only turn into the new one
  revert h
  induction sec.body using List.reverseRecOn with
  | nil =>
    intro hnil
    cases hnil
  | append_singleton body l ih =>
    rw [List.filterMap_append, List.filterMap_append]
    by_cases hkey : isKeyLine old l = true
    · intro _
      simp [hkey]
    · cases hpub : publicKeyOf l with
      | none => simpa [hpub, hkey] using ih
      | some key =>
        intro hlast
        obtain rfl : key = old := by simpa [hpub] using hlast
        exact absurd (isKeyLine_of_publicKeyOf hpub) hkey

theorem allowedIPs_rotated (sec : Section) : (sec.rotated old new).allowedIPs = sec.allowedIPs := by
  have hline : ∀ l, (rotatedLine old new l).bind allowedIPsOf = allowedIPsOf l := by
    intro l
    have hother : keyOf l ≠ "allowedips".toList → allowedIPsOf l = none := fun hne => by
      cases hips : allowedIPsOf l with
      | none => rfl
      | some list => exact absurd (keyOf_of_allowedIPsOf hips) hne
    rw [rotatedLine]
    split
    · next hpsk => exact (hother (by rw [hpsk]; decide)).symm
    · split
      · next hkey =>
        have hpub : keyOf l = "publickey".toList :=
          of_decide_eq_true (Bool.and_eq_true_iff.mp hkey).1
        rw [hother (by rw [hpub]; decide), Option.bind_some]
        cases hips : allowedIPsOf ("PublicKey = " ++ new) with
        | none => rfl
        | some list =>
          have he := (keyOf_newLine new).symm.trans (keyOf_of_allowedIPsOf hips)
          exact absurd he (by decide)
      · rfl
  have hbody : (sec.rotated old new).body.filterMap allowedIPsOf = sec.body.filterMap
      allowedIPsOf := by
    change (sec.body.filterMap (rotatedLine old new)).filterMap allowedIPsOf = _
    rw [List.filterMap_filterMap]
    exact List.filterMap_congr fun l _ => hline l
  rw [Section.allowedIPs, Section.allowedIPs, hbody]

theorem peerKey_rotated (hnew : trim new.toList = new.toList) (hne : new ≠ "")
    (h : sec.peerKey = some old) :
    (sec.rotated old new).peerKey = some new := by
  obtain ⟨hpeer, hkey, -⟩ := Section.peerKey_eq_some.mp h
  exact Section.peerKey_eq_some.mpr ⟨hpeer, publicKey_rotated hnew hkey, hne⟩

/-- One parse, and the same with a key renamed that was not in use. -/
structure Renamed (old new : String) (peers peers' : Table String (List String)) : Prop where
  entries : peers'.entries = peers.entries.map (Prod.map (renameKey old new) id)
  fresh : new ∉ peers.keys

theorem keys_set {peers : Table String (List String)} {ips : List String} (h : new ∉ peers.keys)
    (hne : key ≠ new) :
    new ∉ (peers.set key ips).keys := by
  rw [Table.mem_keys, Table.get?_set, if_neg hne.symm]
  exact mt Table.mem_keys.mpr h

theorem Renamed.other {peers peers' : Table String (List String)} (h : Renamed old new peers peers')
    (hold : sec.peerKey ≠ some old) (hnew : sec.peerKey ≠ some new) :
    Renamed old new (addPeer peers sec) (addPeer peers' sec) := by
  cases hpk : sec.peerKey with
  | none => rwa [addPeer_of_none hpk, addPeer_of_none hpk]
  | some key =>
    have hne : key ≠ old ∧ key ≠ new := ⟨fun he => hold (he ▸ hpk), fun he => hnew (he ▸ hpk)⟩
    have hself : renameKey old new key = key := if_neg hne.1
    rw [addPeer_of_some hpk, addPeer_of_some hpk]
    refine ⟨?_, keys_set h.fresh hne.2⟩
    have hset := Table.entries_set_map (k := key) (v := sec.allowedIPs) h.entries fun q hq he => by
      rw [hself, renameKey] at he
      split at he
      · exact absurd he.symm hne.2
      · exact he
    rwa [hself] at hset

theorem Renamed.swapped {peers peers' : Table String (List String)}
    (h : Renamed old new peers peers')
    (hold : sec.peerKey = some old) (hnew : trim new.toList = new.toList) (hne : new ≠ "")
    (hdiff : old ≠ new) :
    Renamed old new (addPeer peers sec) (addPeer peers' (sec.rotated old new)) := by
  have hself : renameKey old new old = new := if_pos rfl
  rw [addPeer_of_some hold, addPeer_of_some (peerKey_rotated hnew hne hold), allowedIPs_rotated]
  refine ⟨?_, keys_set h.fresh hdiff⟩
  have hset := Table.entries_set_map (k := old) (v := sec.allowedIPs) h.entries fun q hq he => by
    rw [hself, renameKey] at he
    split at he
    · assumption
    · exact absurd (he ▸ hq) h.fresh
  rwa [hself] at hset

theorem Renamed.foldl {peers peers' : Table String (List String)} {secs : List Section}
    (h : Renamed old new peers peers')
    (hsecs : ∀ s ∈ secs, s.peerKey ≠ some old ∧ s.peerKey ≠ some new) :
    Renamed old new (secs.foldl addPeer peers) (secs.foldl addPeer peers') := by
  induction secs generalizing peers peers' with
  | nil => exact h
  | cons sec secs ih =>
    obtain ⟨hold, hnew⟩ := hsecs sec List.mem_cons_self
    exact ih (h.other hold hnew) fun s hs => hsecs s (List.mem_cons_of_mem _ hs)

theorem peerKey_ne_of_fresh (h : FreshKey key conf) :
    ∀ s ∈ sections conf, s.peerKey ≠ some key := by
  intro s hs hpk
  obtain ⟨-, hkey, -⟩ := Section.peerKey_eq_some.mp hpk
  obtain ⟨l, hl, hkey⟩ := List.mem_filterMap.mp (List.mem_of_getLast? hkey)
  have hmem : l ∈ conf := by
    rw [← flatMap_sections conf]
    exact List.mem_flatMap.mpr ⟨s, hs, List.mem_append_right _ hl⟩
  refine h l hmem ?_
  obtain ⟨-, hval⟩ := startsWith_of_publicKeyOf hkey
  rw [trim_afterEq] at hval
  rw [← hval]
  obtain ⟨a, b, hsplit, -, -⟩ := exists_trim (afterEq l.toList)
  have hsuffix : afterEq l.toList <:+ l.toList := by
    unfold afterEq
    split
    · exact (List.tail_suffix _).trans (List.dropWhile_suffix _)
    · exact List.suffix_rfl
  exact List.IsInfix.trans ⟨a, b, hsplit.symm⟩ hsuffix.isInfix

/-- The section that is rotated is the only one the parser reads under the old key. -/
def ReadOnce (old : String) (conf : List String) : Prop :=
  ∀ pre sec post, FirstHolder old conf pre sec post → sec.peerKey = some old ∧ ∀ s ∈ post,
    s.peerKey ≠ some old

/-- A rotation swaps the key of the first peer that has it, and leaves every other line alone. The
parser reads one key renamed, if it read the old one there and nowhere else. -/
theorem rewriteRotatedPeer_spec (hfresh : FreshKey new conf) (hnew : trim new.toList = new.toList)
    (hne : new ≠ "") :
    ((sections conf).any (·.holdsKey old) = true → ∃ pre sec post out sec',
      FirstHolder old conf pre sec post ∧
      rewriteRotatedPeer conf old new = (true, out) ∧ sections out = pre ++ sec' :: post ∧
      Swapped old new sec sec') ∧
    ((sections conf).any (·.holdsKey old) = false →
      rewriteRotatedPeer conf old new = (false, conf)) ∧
    (ReadOnce old conf → (parsePeersFromConf (rewriteRotatedPeer conf old new).2).entries =
      (parsePeersFromConf conf).entries.map (Prod.map (renameKey old new) id)) := by
  have hnone : (sections conf).any (·.holdsKey old) = false →
      rewriteRotatedPeer conf old new = (false, conf) :=
    fun hany => rewriteRotatedPeer_of_none fun s hs => by simpa using List.any_eq_false.mp hany s hs
  refine ⟨fun hany => ?_, hnone, fun honce => ?_⟩
  · obtain ⟨pre, sec, post, hfirst⟩ := exists_firstHolder hany
    have hsections : sections (rewriteRotatedPeer conf old new).2 = pre ++ sec.rotated old new ::
        post := sections_rotated hfirst
    rw [rewriteRotatedPeer_of_first hfirst] at hsections ⊢
    exact ⟨pre, sec, post, _, sec.rotated old new, hfirst, rfl, hsections,
      swapped_rotated hnew hfirst.holds⟩
  · have hnever := peerKey_ne_of_fresh hfresh
    have hempty : Renamed old new .empty .empty := ⟨rfl, nofun⟩
    cases hany : (sections conf).any (·.holdsKey old) with
    | false =>
      rw [hnone hany, parsePeersFromConf_eq]
      refine (hempty.foldl fun s hs => ⟨fun hpk => ?_, hnever s hs⟩).entries
      have hno := List.any_eq_false.mp hany s hs
      exact hno (holdsKey_of_peerKey hpk)
    | true =>
      obtain ⟨pre, sec, post, hfirst⟩ := exists_firstHolder hany
      obtain ⟨hread, hpost⟩ := honce pre sec post hfirst
      have hmem : ∀ s, s ∈ pre ∨ s = sec ∨ s ∈ post → s ∈ sections conf := fun s hs => by
        rw [hfirst.split]
        simpa using hs
      have hdiff : old ≠ new := fun he => hnever sec (hmem sec (.inr (.inl rfl))) (he ▸ hread)
      have hpre : ∀ s ∈ pre, s.peerKey ≠ some old ∧ s.peerKey ≠ some new := fun s hs =>
        ⟨fun hpk => absurd (hfirst.first s hs) (by simp [holdsKey_of_peerKey hpk]),
          hnever s (hmem s (.inl hs))⟩
      have hafter : ∀ s ∈ post, s.peerKey ≠ some old ∧ s.peerKey ≠ some new := fun s hs =>
        ⟨hpost s hs, hnever s (hmem s (.inr (.inr hs)))⟩
      rw [parsePeersFromConf_eq, parsePeersFromConf_eq, sections_rotated hfirst, hfirst.split,
        List.foldl_append,
        List.foldl_append, List.foldl_cons, List.foldl_cons]
      exact (((hempty.foldl hpre).swapped hread hnew hne hdiff).foldl hafter).entries

/-! Rotations of two confs. -/

instance (key : String) (conf : List String) : Decidable (FreshKey key conf) :=
  inferInstanceAs (Decidable (∀ l ∈ conf, ¬ key.toList <:+: l.toList))

def pskConf : List String :=
  ["[Peer]", "PresharedKey = p1=", "PublicKey = kA=", "AllowedIPs = 10.10.0.2/32",
    "[Peer]", "PublicKey = kB=", "PresharedKey = p2="]

/-- A peer with two sections. -/
def twinConf : List String :=
  ["[Peer]", "PublicKey = kA=", "AllowedIPs = 10.10.0.2/32", "[Peer]", "PublicKey = kA=",
    "AllowedIPs = 10.10.0.3/32"]

theorem rewriteRotatedPeer_spec_sample :
    ((sections pskConf).any (·.holdsKey "kA=") = true → ∃ pre sec post out sec',
      FirstHolder "kA=" pskConf pre sec post ∧
      rewriteRotatedPeer pskConf "kA=" "kC=" = (true, out) ∧ sections out = pre ++ sec' :: post ∧
        Swapped "kA=" "kC=" sec sec') ∧
    ((sections pskConf).any (·.holdsKey "kA=") = false →
      rewriteRotatedPeer pskConf "kA=" "kC=" = (false, pskConf)) ∧
    (ReadOnce "kA=" pskConf →
      (parsePeersFromConf (rewriteRotatedPeer pskConf "kA=" "kC=").2).entries =
      (parsePeersFromConf pskConf).entries.map (Prod.map (renameKey "kA=" "kC=") id)) :=
  rewriteRotatedPeer_spec (by decide +kernel) (by decide) (by decide)

/-- Only the first section of a peer is rotated: the parser reads both keys afterwards. -/
theorem rotation_leaves_second_section :
    FreshKey "kC=" twinConf ∧ (rewriteRotatedPeer twinConf "kA=" "kC=").1 = true ∧
    (parsePeersFromConf (rewriteRotatedPeer twinConf "kA=" "kC=").2).entries ≠
      (parsePeersFromConf twinConf).entries.map (Prod.map (renameKey "kA=" "kC=") id) := by
  decide +kernel

end FloppyGuard.WireGuard
