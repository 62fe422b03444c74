import FloppyGuard.Lib.Text
import Mathlib.Data.List.Infix
import Mathlib.Data.List.Nodup

/-! Which link an agent belongs to: `resolveBoundStatusLink` of `agent-ingress.js` and
`matchLinkAgent` of the map (`topology.ts`). -/
namespace FloppyGuard.LinkBinding

/-- A link of the status; `buildLinkRecord` gives each a name. -/
structure Link where
  name : List Char
  type : List Char
  peerPublicKey : Option (List Char)
  tunnelAddresses : List (List Char)
  named : name ≠ []
deriving DecidableEq

structure Agent where
  name : List Char
  hostname : Option (List Char)
  wgLinkName : Option (List Char)
  lastSeen : Option ℕ
deriving DecidableEq

def isGeneratedLinkName (l : Link) : Bool :=
  l.peerPublicKey.any fun key => key ≠ [] && l.name = l.type ++ '-' :: key.take 8

/-- `[A-Za-z0-9+/]` -/
def isKeyChar (c : Char) : Bool := c.isAlphanum || c = '+' || c = '/'

/-- What `.` does not match. -/
def isLineEnd (c : Char) : Bool := c = '\n' || c = '\r' || c = '\u2028' || c = '\u2029'

/-- The key of `/^(.+)-([A-Za-z0-9+/]{8})$/`. -/
def keyPart (name : List Char) : Option (List Char) :=
  let front := name.take (name.length - 9)
  let key := name.drop (name.length - 8)
  if front ≠ [] ∧ front.all (!isLineEnd ·) ∧ (name.drop (name.length - 9)).head? = some '-' ∧
    key.all isKeyChar then some key else none

/-- A link under its generated name whose key starts so. -/
def carries (key : List Char) (l : Link) : Bool :=
  isGeneratedLinkName l && l.peerPublicKey.any (key <+: ·)

/-- `byKey.length === 1 ? byKey[0] : null` -/
def onlyOne : List Link → Option Link
  | [l] => some l
  | _ => none

def resolveBoundStatusLink (linkName : Option (List Char)) (statusLinks : List Link) :
    Option Link :=
  match statusLinks.find? (some ·.name = linkName) with
  | some exact => some exact
  | none => (keyPart (linkName.getD [])).bind fun key => onlyOne (statusLinks.filter (carries key))

/-! The map. -/

def newestSeen (list : List Agent) : Option Agent :=
  list.foldl (fun best a => best.elim (some a) fun b =>
    if b.lastSeen.getD 0 < a.lastSeen.getD 0 then some a else some b) none

/-- The stored name of an agent, `""` for none. -/
def Agent.bound (a : Agent) : List Char := a.wgLinkName.getD []

def byKey (link : Link) (allLinks : List Link) (a : Agent) : Bool :=
  (keyPart a.bound).any fun key =>
    a.bound ∉ allLinks.map Link.name && link.peerPublicKey.any (key <+: ·) &&
      (allLinks.filter (carries key)).length = 1

def isUnbound (allLinks : List Link) (a : Agent) : Bool :=
  a.bound = [] || a.bound ∉ allLinks.map Link.name

/-- `addr.replace(/\/\d+$/, "")` -/
def withoutLength (addr : List Char) : List Char :=
  match addr.reverse.dropWhile Char.isDigit with
  | '/' :: rest => if addr.getLast?.any Char.isDigit then rest.reverse else addr
  | _ => addr

def showsAddress (link : Link) (a : Agent) : Bool :=
  link.tunnelAddresses.any fun addr =>
    withoutLength addr ≠ [] &&
      (withoutLength addr <:+: a.hostname.getD [] || withoutLength addr <:+: a.name)

def matchLinkAgent (link : Link) (agents : List Agent) (allLinks : List Link) : Option Agent :=
  match newestSeen (agents.filter fun a => a.bound ≠ [] && a.wgLinkName = some link.name) with
  | some exact => some exact
  | none =>
    match if isGeneratedLinkName link then newestSeen (agents.filter (byKey link allLinks))
      else none with
    | some k => some k
    | none =>
      let unbound := agents.filter (isUnbound allLinks)
      (unbound.find? (·.name = link.name)).or (unbound.find? (showsAddress link))

variable {links : List Link} {agents : List Agent} {l x : Link} {a : Agent} {key : List Char}

/-! The two rules of the backend. -/

/-- The stored name is no link's name, and its key is that of this unnamed link alone. -/
def BoundByKey (links : List Link) (a : Agent) (l : Link) : Prop :=
  a.bound ∉ links.map Link.name ∧ ∃ key, keyPart a.bound = some key ∧ l ∈ links ∧
    carries key l = true ∧
    ∀ x ∈ links, carries key x = true → x = l

theorem filter_eq_singleton {p : Link → Bool} (hn : links.Nodup) :
    links.filter p = [l] ↔ l ∈ links ∧ p l = true ∧ ∀ x ∈ links, p x = true → x = l := by
  constructor
  · intro h
    have hmem : ∀ x, x ∈ links ∧ p x = true ↔ x = l := by
      intro x
      rw [← List.mem_filter, h, List.mem_singleton]
    exact ⟨((hmem l).mpr rfl).1, ((hmem l).mpr rfl).2, fun x hx hp => (hmem x).mp ⟨hx, hp⟩⟩
  · rintro ⟨hl, hp, hone⟩
    have hperm : (links.filter p).Perm [l] := by
      refine (List.perm_ext_iff_of_nodup (hn.filter p) (List.nodup_singleton l)).mpr fun x => ?_
      rw [List.mem_filter, List.mem_singleton]
      constructor
      · exact fun h => hone x h.1 h.2
      · rintro rfl
        exact ⟨hl, hp⟩
    exact List.perm_singleton.mp hperm

theorem bound_name (h : a.wgLinkName = some l.name) : a.bound = l.name := by
  rw [Agent.bound, h, Option.getD_some]

theorem wgLinkName_of_bound (h : a.bound ≠ []) : a.wgLinkName = some a.bound := by
  cases hname : a.wgLinkName with
  | none => exact absurd (by rw [Agent.bound, hname]; rfl) h
  | some name => rw [Agent.bound, hname, Option.getD_some]

theorem keyPart_ne_nil (h : keyPart a.bound = some key) : a.bound ≠ [] := by
  intro he
  have hnone : keyPart [] = none := by decide
  rw [he, hnone] at h
  cases h

theorem onlyOne_eq_some {ls : List Link} : onlyOne ls = some l ↔ ls = [l] := by
  constructor
  · intro h
    unfold onlyOne at h
    split at h
    · cases h
      rfl
    · cases h
  · rintro rfl
    rfl

/-- The link an agent is stored under. -/
theorem find_name (hn : (links.map Link.name).Nodup) :
    links.find? (some ·.name = a.wgLinkName) = some l ↔ l ∈ links ∧ a.wgLinkName = some l.name := by
  constructor
  · intro h
    have hname := List.find?_some h
    exact ⟨List.mem_of_find?_eq_some h, (of_decide_eq_true hname).symm⟩
  · rintro ⟨hl, hname⟩
    cases hf : links.find? (some ·.name = a.wgLinkName) with
    | none =>
      have hne := List.find?_eq_none.mp hf l hl
      exact absurd (decide_eq_true hname.symm) hne
    | some y =>
      have hy := List.find?_some hf
      have hyname := (of_decide_eq_true hy).trans hname
      rw [List.inj_on_of_nodup_map hn (List.mem_of_find?_eq_some hf) hl (Option.some.inj hyname)]

/-- What the backend takes an agent for. -/
theorem resolve_iff (hn : (links.map Link.name).Nodup) :
    resolveBoundStatusLink a.wgLinkName links = some l ↔
    l ∈ links ∧ a.wgLinkName = some l.name ∨ BoundByKey links a l := by
  unfold resolveBoundStatusLink
  split
  · next x hf =>
    obtain ⟨hx, hname⟩ := (find_name hn).mp hf
    constructor
    · intro h
      cases h
      exact .inl ⟨hx, hname⟩
    · rintro (hl | ⟨hnot, -⟩)
      · rw [← (find_name hn).mpr hl, hf]
      · exact absurd (bound_name hname ▸ List.mem_map_of_mem hx) hnot
  · next hf =>
    have hnone : ∀ x ∈ links, a.wgLinkName ≠ some x.name := by
      intro x hx hname
      rw [(find_name hn).mpr ⟨hx, hname⟩] at hf
      cases hf
    have hone : ∀ key, onlyOne (links.filter (carries key)) = some l ↔ l ∈ links ∧
      carries key l = true ∧
        ∀ x ∈ links, carries key x = true → x = l :=
      fun key => onlyOne_eq_some.trans (filter_eq_singleton hn.of_map)
    rw [Option.bind_eq_some_iff]
    constructor
    · rintro ⟨key, hkey, hl⟩
      refine .inr ⟨fun hmem => ?_, key, hkey, (hone key).mp hl⟩
      obtain ⟨x, hx, he⟩ := List.mem_map.mp hmem
      exact hnone x hx (he ▸ wgLinkName_of_bound (keyPart_ne_nil hkey))
    · rintro (⟨hl, hname⟩ | ⟨-, key, hkey, hl⟩)
      · exact absurd hname (hnone l hl)
      · exact ⟨key, hkey, (hone key).mpr hl⟩

/-! The rules of the map. -/

theorem newestSeen_spec (list : List Agent) :
    (newestSeen list = none ↔ list = []) ∧ ∀ a, newestSeen list = some a → a ∈ list := by
  have hfold : ∀ (list : List Agent) (best : Option Agent),
      (list.foldl (fun best a => best.elim (some a) fun b =>
        if b.lastSeen.getD 0 < a.lastSeen.getD 0 then some a else some b) best = none ↔
        best = none ∧ list = []) ∧
      ∀ a,
        list.foldl (fun best a => best.elim (some a) fun b =>
          if b.lastSeen.getD 0 < a.lastSeen.getD 0 then some a else some b) best =
        some a → best = some a ∨ a ∈ list := by
    intro list
    induction list with
    | nil => exact fun best => ⟨by simp, fun a h => .inl h⟩
    | cons b list ih =>
      intro best
      obtain ⟨hnone, hsome⟩ :=
        ih (best.elim (some b) fun c => if c.lastSeen.getD 0 < b.lastSeen.getD 0 then some b
          else some c)
      rw [List.foldl_cons]
      constructor
      · rw [hnone]
        cases best with
        | none => simp
        | some c =>
          rw [Option.elim_some]
          split
          · simp
          · simp
      · intro a ha
        rcases hsome a ha with h | h
        · cases best with
          | none =>
            cases h
            exact .inr List.mem_cons_self
          | some c =>
            rw [Option.elim_some] at h
            split at h
            · cases h
              exact .inr List.mem_cons_self
            · exact .inl h
        · exact .inr (List.mem_cons_of_mem _ h)
  obtain ⟨hnone, hsome⟩ := hfold list none
  refine ⟨hnone.trans (and_iff_right rfl), fun a ha => ?_⟩
  rcases hsome a ha with h | h
  · cases h
  · exact h

theorem byKey_iff (hn : (links.map Link.name).Nodup) (hl : l ∈ links) :
    isGeneratedLinkName l = true ∧ byKey l links a = true ↔ BoundByKey links a l := by
  rw [byKey, Option.any_eq_true]
  constructor
  · rintro ⟨hgen, key, hkey, h⟩
    simp only [Bool.and_eq_true, decide_eq_true_eq] at h
    obtain ⟨⟨hnot, hprefix⟩, hlength⟩ := h
    have hcarries : carries key l = true := Bool.and_eq_true_iff.mpr ⟨hgen, hprefix⟩
    obtain ⟨x, hx⟩ := List.length_eq_one_iff.mp hlength
    have hmem : l ∈ links.filter (carries key) := List.mem_filter.mpr ⟨hl, hcarries⟩
    rw [hx, List.mem_singleton] at hmem
    exact ⟨hnot, key, hkey, (filter_eq_singleton hn.of_map).mp (hmem ▸ hx)⟩
  · rintro ⟨hnot, key, hkey, hone⟩
    have hcarries := Bool.and_eq_true_iff.mp hone.2.1
    refine ⟨hcarries.1, key, hkey, ?_⟩
    rw [(filter_eq_singleton hn.of_map).mpr hone]
    simp only [Bool.and_eq_true, decide_eq_true_eq]
    exact ⟨⟨hnot, hcarries.2⟩, rfl⟩

/-- An agent without a link is looked for by its name, then by an address it shows. -/
def byNameOrAddress (links : List Link) (agents : List Agent) (l : Link) : Option Agent :=
  (agents.find? fun a => isUnbound links a && a.name = l.name).or
    (agents.find? fun a => isUnbound links a && showsAddress l a)

/-- Some agent is stored under the link's name or bound to it by key. -/
def Claimed (links : List Link) (agents : List Agent) (l : Link) : Prop :=
  ∃ a ∈ agents, a.wgLinkName = some l.name ∨ BoundByKey links a l

theorem matchLinkAgent_unclaimed (hn : (links.map Link.name).Nodup) (hl : l ∈ links)
    (h : ¬ Claimed links agents l) :
    matchLinkAgent l agents links = byNameOrAddress links agents l := by
  have hexact : newestSeen (agents.filter fun a => a.bound ≠ [] && a.wgLinkName = some l.name) =
      none := by
    refine (newestSeen_spec _).1.mpr (List.filter_eq_nil_iff.mpr fun a ha he => h ⟨a, ha, .inl ?_⟩)
    exact of_decide_eq_true (Bool.and_eq_true_iff.mp he).2
  have hkey : (if isGeneratedLinkName l then newestSeen (agents.filter (byKey l links)) else none) =
      none := by
    split
    · next hgen =>
      refine (newestSeen_spec _).1.mpr (List.filter_eq_nil_iff.mpr fun a ha he =>
        h ⟨a, ha, .inr ?_⟩)
      exact (byKey_iff hn hl).mp ⟨hgen, he⟩
    · rfl
  rw [matchLinkAgent, hexact, hkey]
  simp only [byNameOrAddress, List.find?_filter, Bool.decide_and, Bool.decide_eq_true]

theorem matchLinkAgent_claimed (hn : (links.map Link.name).Nodup) (hl : l ∈ links)
    (h : Claimed links agents l) :
    ∃ a, matchLinkAgent l agents links = some a ∧
    (a.wgLinkName = some l.name ∨ BoundByKey links a l) := by
  unfold matchLinkAgent
  split
  · next a ha =>
    have hmem := (List.mem_filter.mp ((newestSeen_spec _).2 a ha)).2
    exact ⟨a, rfl, .inl (of_decide_eq_true (Bool.and_eq_true_iff.mp hmem).2)⟩
  · next hexact =>
    obtain ⟨b, hb, hclaim⟩ := h
    have hbound : BoundByKey links b l := by
      refine hclaim.resolve_left fun hname => ?_
      have hnil := List.filter_eq_nil_iff.mp ((newestSeen_spec _).1.mp hexact) b hb
      refine hnil (Bool.and_eq_true_iff.mpr ⟨decide_eq_true ?_, decide_eq_true hname⟩)
      rw [bound_name hname]
      exact l.named
    obtain ⟨hgen, hkey⟩ := (byKey_iff hn hl).mpr hbound
    rw [if_pos hgen]
    split
    · next a ha =>
      have hmem := (List.mem_filter.mp ((newestSeen_spec _).2 a ha)).2
      exact ⟨a, rfl, .inr ((byKey_iff hn hl).mp ⟨hgen, hmem⟩)⟩
    · next hnone =>
      exact absurd hkey (List.filter_eq_nil_iff.mp ((newestSeen_spec _).1.mp hnone) b hb)

/-! Both sides together. -/

/-- The map shows for each link an agent of it if there is one, and never an agent of another link.
-/
def Agrees (links : List Link) (agents : List Agent) : Prop := ∀ l ∈ links,
  ((∃ a ∈ agents, resolveBoundStatusLink a.wgLinkName links = some l) →
    ∃ a, matchLinkAgent l agents links = some a ∧
      resolveBoundStatusLink a.wgLinkName links = some l) ∧
  ∀ a x, matchLinkAgent l agents links = some a →
    resolveBoundStatusLink a.wgLinkName links = some x → x = l

/-- The agent an unclaimed link gets by name or address is not bound to a link by key. -/
def NoStolen (links : List Link) (agents : List Agent) : Prop :=
  ∀ l ∈ links, ¬ Claimed links agents l → ∀ a ∈ byNameOrAddress links agents l, ∀ x,
    ¬ BoundByKey links a x

theorem byNameOrAddress_mem (h : byNameOrAddress links agents l = some a) :
    a ∈ agents ∧ isUnbound links a = true := by
  rcases Option.or_eq_some_iff.mp h with h | ⟨-, h⟩
  · have hp := List.find?_some h
    exact ⟨List.mem_of_find?_eq_some h, (Bool.and_eq_true_iff.mp hp).1⟩
  · have hp := List.find?_some h
    exact ⟨List.mem_of_find?_eq_some h, (Bool.and_eq_true_iff.mp hp).1⟩

theorem resolve_unique (hn : (links.map Link.name).Nodup) (hl : l ∈ links)
    (ha : a.wgLinkName = some l.name ∨ BoundByKey links a l) :
    resolveBoundStatusLink a.wgLinkName links = some l :=
  (resolve_iff hn).mpr (ha.imp_left fun h => ⟨hl, h⟩)

theorem agrees_iff (hn : (links.map Link.name).Nodup) :
    Agrees links agents ↔ NoStolen links agents := by
  constructor
  · intro h l hl hfree a ha x hx
    obtain ⟨hmem, -⟩ := byNameOrAddress_mem ha
    have hmatch := (matchLinkAgent_unclaimed hn hl hfree).trans ha
    obtain rfl := (h l hl).2 a x hmatch ((resolve_iff hn).mpr (.inr hx))
    exact hfree ⟨a, hmem, .inr hx⟩
  · intro h l hl
    constructor
    · rintro ⟨b, hb, hres⟩
      obtain ⟨a, hmatch, ha⟩ :=
        matchLinkAgent_claimed hn hl ⟨b, hb, ((resolve_iff hn).mp hres).imp_left And.right⟩
      exact ⟨a, hmatch, resolve_unique hn hl ha⟩
    · intro a x hmatch hres
      by_cases hclaim : Claimed links agents l
      · obtain ⟨b, hb, hbl⟩ := matchLinkAgent_claimed hn hl hclaim
        obtain rfl := Option.some.inj (hmatch.symm.trans hb)
        exact Option.some.inj (hres.symm.trans (resolve_unique hn hl hbl))
      · rw [matchLinkAgent_unclaimed hn hl hclaim] at hmatch
        rcases (resolve_iff hn).mp hres with ⟨hx, hname⟩ | hkey
        · -- an agent stored under a link's name is not unbound
          have hunbound := (byNameOrAddress_mem hmatch).2
          rw [isUnbound, bound_name hname] at hunbound
          simp only [x.named, decide_false, Bool.false_or, decide_eq_true_eq] at hunbound
          exact absurd (List.mem_map_of_mem hx) hunbound
        · exact absurd hkey (h l hl hclaim a hmatch x)

/-- Two sites, one under its generated name; its agent is called as the other site is, and stored
under the name the link had when it was taken for a client. -/
def office : Link :=
  ⟨"Office".toList, "site-to-site".toList, some (List.replicate 42 'z' ++ "8=".toList), [],
    by decide⟩

def unnamed : Link :=
  ⟨"hub-link-AbCd1234".toList, "hub-link".toList,
    some ("AbCd1234".toList ++ List.replicate 35 'A' ++ ['=']), [], by decide⟩

def officeAgent : Agent := ⟨"Office".toList, none, some "client-AbCd1234".toList, some 0⟩

theorem agent_of_another_link :
    ([office, unnamed].map Link.name).Nodup ∧ ¬ Agrees [office, unnamed] [officeAgent] := by
  refine ⟨by decide, fun h => ?_⟩
  have hsame :=
    (h office List.mem_cons_self).2 officeAgent unnamed (by decide +kernel) (by decide +kernel)
  exact absurd hsame (by decide)

/-- Under another name the agent is only shown with its own link. -/
theorem agrees_without_fallback :
    Agrees [office, unnamed] [{ officeAgent with name := "gw".toList }] := by
  refine (agrees_iff (by decide)).mpr fun l hl _ a ha => ?_
  have hnone : ∀ l ∈ [office, unnamed],
      byNameOrAddress [office, unnamed] [{ officeAgent with name := "gw".toList }] l = none := by
    decide +kernel
  rw [hnone l hl] at ha
  cases ha

end FloppyGuard.LinkBinding
