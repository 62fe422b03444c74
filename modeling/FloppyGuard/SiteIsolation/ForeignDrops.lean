import FloppyGuard.Lib.Table
import FloppyGuard.SiteIsolation.Nft
import FloppyGuard.SiteIsolation.Verdict

/-! The drop rules other tables have on the forward hook (`parseForeignForwardDrops`), and when one
that is said to block a flow does. -/
namespace FloppyGuard.SiteIsolation.ForeignDrops

open Nft Text

def siteTable : String := "floppyguard_sites"

mutual
/-- The networks of an address expression, `none` when it is not understood. -/
def nftAddrToCidrs (sets : String → Option (List Cidr)) : AddrExpr → Option (List Cidr)
  | .text value =>
    match value.toList with
    | '@' :: name => sets (String.ofList name)
    | _ => (canonicalCidr (if '/' ∈ value.toList then value else value ++ "/" ++ "32")).map ([·])
  | .net addr len => (canonicalCidr (addr ++ "/" ++ toString len)).map ([·])
  | .set elems => elemsToCidrs sets elems
  | .elem val _ => nftAddrToCidrs sets val
  | .range _ _ | .other _ => none

def elemsToCidrs (sets : String → Option (List Cidr)) : List AddrExpr → Option (List Cidr)
  | [] => some []
  | e :: es =>
    match nftAddrToCidrs sets e with
    | none => none
    | some r => (elemsToCidrs sets es).map (r ++ ·)
end

structure ForeignDrop where
  family : String
  table : String
  chain : String
  handle : Option ℕ
  comment : Option String
  srcSet : Option String
  dstSet : Option String
  src : Option (List Cidr)
  dst : Option (List Cidr)
  /-- the rule has further conditions -/
  extra : Bool
deriving DecidableEq

section Reader

variable (doc : Ruleset)

/-- The base chains on the hook, all but the own one. -/
def forwardChains : List (String × String × String) :=
  doc.filterMap fun
    | .chain c =>
      if c.hook = some "forward" ∧ ¬ (c.family = "inet" ∧ c.table = siteTable) then
        some (c.family, c.table, c.name)
      else none
    | _ => none

def readSet (t : Table (String × String × String) (Option (List Cidr))) :
    Item → Table (String × String × String) (Option (List Cidr))
  | .set s =>
    if s.name ≠ "" ∧ s.type = some "ipv4_addr" then
      t.set (s.family, s.table, s.name) (elemsToCidrs (fun _ => none) s.elem)
    else t
  | _ => t

/-- The sets of addresses; `none` for one with an element that is not understood. -/
def sets : Table (String × String × String) (Option (List Cidr)) := doc.foldl readSet .empty

def tableSets (r : Rule) (name : String) : Option (List Cidr) :=
  ((sets doc).get? (r.family, r.table, name)).join

end Reader

def isVerdict : Stmt → Bool
  | .drop | .reject _ => true
  | _ => false

def setName : AddrExpr → Option String
  | .text value =>
    match value.toList with
    | '@' :: name => some (String.ofList name)
    | _ => none
  | _ => none

/-- What the loop over the statements has found; `src` and `dst` are unset, not understood or known.
-/
structure Reading where
  src : Option (Option (List Cidr))
  dst : Option (Option (List Cidr))
  srcSet : Option String
  dstSet : Option String
  extra : Bool

namespace Reading

def init : Reading := ⟨none, none, none, none, false⟩

def stmt (sets : String → Option (List Cidr)) (st : Reading) : Stmt → Reading
  | .compare (some p) op right _ =>
    if p.IsAddress op then
      if p.field = "saddr" then
        { st with src := some (nftAddrToCidrs sets right), srcSet := setName right }
      else { st with dst := some (nftAddrToCidrs sets right), dstSet := setName right }
    else { st with extra := true }
  | .counter | .drop | .reject _ | .log | .limit _ => st
  | .compare none _ _ _ | .other _ => { st with extra := true }

end Reading

/-- What is reported of a rule. -/
def foreignDrop (doc : Ruleset) (r : Rule) : Option ForeignDrop :=
  if (r.family, r.table, r.chain) ∈ forwardChains doc ∧ r.expr.any isVerdict then
    let st := r.expr.foldl (Reading.stmt (tableSets doc r)) .init
    match st.src, st.dst with
    | some src, some dst =>
      some
        { family := r.family
          table := r.table
          chain := r.chain
          handle := r.handle
          comment := r.comment.map fun comment => String.ofList (slice 120 comment.toList)
          srcSet := st.srcSet
          dstSet := st.dstSet
          src
          dst
          extra := st.extra }
    | _, _ => none
  else none

/-- A text that is no JSON has no rules. -/
def parseForeignForwardDrops (doc : Option Ruleset) : List ForeignDrop :=
  let items := doc.getD []
  items.filterMap fun
    | .rule r => foreignDrop items r
    | _ => none

structure DropRef where
  family : String
  table : String
  chain : String
  comment : Option String
deriving DecidableEq

def ForeignDrop.ref (r : ForeignDrop) : DropRef := ⟨r.family, r.table, r.chain, r.comment⟩

structure DropVerdict where
  blocked : Bool
  isPartial : Bool
  rule : Option DropRef
deriving DecidableEq

def anyOverlap (xs ys : List Cidr) : Bool := xs.any fun x => ys.any fun y => decide (x.Overlaps y)

/-- The loop of `manualDropVerdict`; `part` is the first rule the ranges only overlap. -/
def dropLoop (s d : Cidr) : List ForeignDrop → Option DropRef → DropVerdict
  | [], part => ⟨false, part.isSome, part⟩
  | r :: rs, part =>
    match r.src, r.dst with
    | some src, some dst =>
      let full := src.any (fun n => decide (n.Contains s)) && dst.any fun n => decide (n.Contains d)
      if full && !r.extra then ⟨true, false, some r.ref⟩
      else dropLoop s d rs (if part.isNone && anyOverlap src [s] && anyOverlap dst [d] then
        some r.ref else part)
    | _, _ => dropLoop s d rs part

def manualDropVerdict (drops : List ForeignDrop) (src dst : String) : DropVerdict :=
  match canonicalCidr src, canonicalCidr dst with
  | some s, some d => dropLoop s d drops none
  | _, _ => ⟨false, false, none⟩

/-! What is claimed of a report. -/

/-- A rule of the ruleset that is reported without further conditions and with both addresses known.
-/
structure Reported (doc : Ruleset) (r : Rule) (f : ForeignDrop) (src dst : List Cidr) : Prop where
  mem : .rule r ∈ doc
  report : foreignDrop doc r = some f
  extra : f.extra = false
  src : f.src = some src
  dst : f.dst = some dst

/-- Such a rule drops all it is reported to drop, and so does the rule a verdict names. -/
structure Truthful (doc : Ruleset) : Prop where
  reports : ∀ r f src dst, Reported doc r f src dst → ∀ pkt, covers src pkt.saddr = true →
    covers dst pkt.daddr = true →
    r.Drops doc pkt
  verdicts : ∀ src dst s d ref, canonicalCidr src = some s → canonicalCidr dst = some d →
    manualDropVerdict (parseForeignForwardDrops (some doc)) src dst = ⟨true, false, some ref⟩ →
    ∃ r f, .rule r ∈ doc ∧ foreignDrop doc r = some f ∧ f.ref = ref ∧
      ∀ pkt : Packet, pkt.saddr ∈ s → pkt.daddr ∈ d → r.Drops doc pkt

/-- The statements before the verdict. -/
def guards (r : Rule) : List Stmt := r.expr.takeWhile (!isVerdict ·)

/-- The address is matched without the help of an element that has a limit. -/
def Sure (doc : Ruleset) (r : Rule) (right : AddrExpr) (x : Ip) : Prop :=
  right.holds (r.env doc (fun _ => false) fun _ _ => false) x = true

/-- Nothing but the two addresses decides what the rule does. -/
structure Plain (doc : Ruleset) (r : Rule) (src dst : List Cidr) : Prop where
  unlimited : ∀ l, .limit l ∉ guards r
  verdict : r.expr.find? isVerdict ≠ some (.reject (some "tcp reset"))
  outer : ∀ p op right json, .compare (some p) op right json ∈ guards r → p.tunnel = none
  saddr : ∀ p op right json, .compare (some p) op right json ∈ guards r → p.field = "saddr" →
    ∀ x, covers src x = true → Sure doc r right x
  daddr : ∀ p op right json, .compare (some p) op right json ∈ guards r → p.field = "daddr" →
    ∀ y, covers dst y = true → Sure doc r right y

/-- Every such rule that is reported with any address is plain. -/
def Unconditional (doc : Ruleset) : Prop :=
  ∀ r f src dst, Reported doc r f src dst → src ≠ [] → dst ≠ [] → Plain doc r src dst

variable {doc : Ruleset} {r : Rule} {f : ForeignDrop} {src dst cs : List Cidr} {s d c : Cidr}
  {x y : Ip} {v : String}
  {env : Env} {pkt : Packet} {stmts : List Stmt} {tables : String → Option (List Cidr)}
    {e : AddrExpr}

/-! The networks of an expression. -/

theorem mem_of_slash {p : ℕ} {ip : Ip} (hbase : c.base = ip &&& prefixMask p) (hlen : c.len = p) :
    x ∈ c ↔ x &&& prefixMask p = ip &&& prefixMask p := by
  rw [PrefixBlock.mem_iff, hbase, hlen, prefixMask_eq]

/-- The block of a text holds the addresses the text means. -/
theorem mem_of_text (h : canonicalCidr (if '/' ∈ v.toList then v else v ++ "/" ++ "32") = some c) :
    x ∈ c ↔ inText v x = true := by
  unfold inText
  by_cases hslash : '/' ∈ v.toList
  · rw [if_pos hslash] at h
    rw [if_pos hslash, h]
    exact decide_eq_true_iff.symm
  · rw [if_neg hslash] at h
    rw [if_neg hslash]
    have h32 : "32" = String.ofList (Nat.toDigits 10 32) := by decide
    rw [h32] at h
    obtain ⟨ip, hip, -, hbase, hlen⟩ := canonicalCidr_slash h
    have hfull : prefixMask 32 = BitVec.allOnes 32 := by decide
    rw [mem_of_slash hbase hlen, hip, hfull, BitVec.and_allOnes, BitVec.and_allOnes,
      decide_eq_true_iff, Option.some.injEq,
      eq_comm]

theorem mem_of_net {addr : String} {len : ℕ}
    (h : canonicalCidr (addr ++ "/" ++ toString len) = some c) :
    x ∈ c ↔ (AddrExpr.net addr len).holds env x = true := by
  obtain ⟨ip, hip, hle, hbase, hlen⟩ := canonicalCidr_slash h
  rw [mem_of_slash hbase hlen, AddrExpr.holds, hip]
  simp [hle]

/-- The sets the reader has resolved are the sets the expression is read in. -/
def Agrees (tables : String → Option (List Cidr)) (env : Env) : Prop :=
  ∀ name cs, tables name = some cs → ∀ x, covers cs x = true ↔ env.named name x = true

theorem covers_append {xs ys : List Cidr} : covers (xs ++ ys) x = (covers xs x || covers ys x) :=
  List.any_append

theorem covers_singleton : covers [c] x = true ↔ x ∈ c := by
  rw [covers_iff]
  simp

mutual
/-- While no limiter takes anything away, an expression that is understood matches exactly its
networks. -/
theorem nftAddrToCidrs_exact (hagree : Agrees tables env) (hopen : ∀ l, env.underLimit l = true) :
    ∀ (e : AddrExpr) {cs : List Cidr}, nftAddrToCidrs tables e = some cs →
    (covers cs x = true ↔ e.holds env x = true)
  | .text value, cs, h => by
    unfold nftAddrToCidrs at h
    split at h
    · next name hname =>
      have hholds : (AddrExpr.text value).holds env x = env.named (String.ofList name) x := by
        unfold AddrExpr.holds
        rw [hname]
        rfl
      rw [hholds]
      exact hagree _ cs h x
    · next hno =>
      have hholds : (AddrExpr.text value).holds env x = inText value x := by
        unfold AddrExpr.holds
        split
        · next name hname => exact (hno name hname).elim
        · rfl
      obtain ⟨c, hc, rfl⟩ := Option.map_eq_some_iff.mp h
      rw [hholds, covers_singleton, mem_of_text hc]
  | .net addr len, cs, h => by
    unfold nftAddrToCidrs at h
    obtain ⟨c, hc, rfl⟩ := Option.map_eq_some_iff.mp h
    rw [covers_singleton, mem_of_net hc]
  | .set elems, cs, h => by
    unfold nftAddrToCidrs at h
    unfold AddrExpr.holds
    exact elemsToCidrs_exact hagree hopen elems h
  | .elem val limit, cs, h => by
    unfold nftAddrToCidrs at h
    unfold AddrExpr.holds
    have hlimit : limit.all env.underLimit = true := by
      cases limit with
      | none => rfl
      | some l => exact hopen l
    rw [hlimit, Bool.and_true]
    exact nftAddrToCidrs_exact hagree hopen val h
  | .range _ _, cs, h => by
    unfold nftAddrToCidrs at h
    cases h
  | .other _, cs, h => by
    unfold nftAddrToCidrs at h
    cases h

theorem elemsToCidrs_exact (hagree : Agrees tables env) (hopen : ∀ l, env.underLimit l = true) :
    ∀ (es : List AddrExpr) {cs : List Cidr}, elemsToCidrs tables es = some cs →
      (covers cs x = true ↔ AddrExpr.holdsAny env es x = true)
  | [], cs, h => by
    unfold elemsToCidrs at h
    obtain rfl := Option.some.inj h
    unfold AddrExpr.holdsAny
    rfl
  | e :: es, cs, h => by
    unfold elemsToCidrs at h
    unfold AddrExpr.holdsAny
    split at h
    · cases h
    · next r hr =>
      obtain ⟨rest, hrest, rfl⟩ := Option.map_eq_some_iff.mp h
      rw [covers_append, Bool.or_eq_true, Bool.or_eq_true, nftAddrToCidrs_exact hagree hopen e hr,
        elemsToCidrs_exact hagree hopen es hrest]
end

/-- `nft` has one set of a name in a table. -/
def SetsDistinct (doc : Ruleset) : Prop :=
  ∀ s s', .set s ∈ doc → .set s' ∈ doc →
    (s.family, s.table, s.name) = (s'.family, s'.table, s'.name) → s = s'

theorem get?_sets {k : String × String × String} {v : Option (List Cidr)}
    (h : (sets doc).get? k = some v) :
    ∃ s, .set s ∈ doc ∧ (s.family, s.table, s.name) = k ∧
      elemsToCidrs (fun _ => none) s.elem = v := by
  have hfrom : ∀ (items : Ruleset) (t : Table (String × String × String) (Option (List Cidr))),
      (items.foldl readSet t).get? k = some v → t.get? k = some v ∨
        ∃ s, .set s ∈ items ∧ (s.family, s.table, s.name) = k ∧
          elemsToCidrs (fun _ => none) s.elem = v := by
    intro items
    induction items with
    | nil => exact fun t h => .inl h
    | cons item items ih =>
      intro t h
      rcases ih _ h with hbefore | ⟨s, hs, hrest⟩
      · cases item with
        | set s =>
          unfold readSet at hbefore
          dsimp only at hbefore
          split at hbefore
          · rw [Table.get?_set] at hbefore
            split at hbefore
            · next hk => exact .inr ⟨s, List.mem_cons_self, hk.symm, Option.some.inj hbefore⟩
            · exact .inl hbefore
          · exact .inl hbefore
        | _ => exact .inl hbefore
      · exact .inr ⟨s, List.mem_cons_of_mem _ hs, hrest⟩
  rcases hfrom doc .empty h with hempty | hitem
  · cases hempty
  · exact hitem

theorem tableSets_agrees (hdistinct : SetsDistinct doc) {underLimit : Limit → Bool}
    (hopen : ∀ l, underLimit l = true)
    (inOther : String → Ip → Bool) : Agrees (tableSets doc r) (r.env doc underLimit inOther) := by
  intro name cs h x
  obtain ⟨s, hs, hkey, helems⟩ := get?_sets (Option.join_eq_some_iff.mp h)
  -- inside a set no other set is looked up
  have hnone : Agrees (fun _ => none) ⟨fun _ _ => false, underLimit, inOther⟩ := by
    intro _ _ h
    cases h
  rw [elemsToCidrs_exact hnone hopen s.elem helems]
  simp only [Prod.mk.injEq] at hkey
  constructor
  · intro hx
    refine List.any_eq_true.mpr ⟨.set s, hs, ?_⟩
    simp [hkey, hx]
  · intro hx
    obtain ⟨item, hitem, hx⟩ := List.any_eq_true.mp hx
    cases item with
    | set s' =>
      simp only [Bool.and_eq_true, decide_eq_true_eq] at hx
      obtain ⟨⟨⟨hfamily, htable⟩, hname⟩, hx⟩ := hx
      obtain rfl := hdistinct s' s hitem hs (by simp [hkey, hfamily, htable, hname])
      exact hx
    | _ => cases hx

/-! What the loop over the statements has read. -/

/-- A statement that is not counted as a further condition. -/
def Known : Stmt → Prop
  | .compare (some p) op _ _ => p.IsAddress op
  | .compare none _ _ _ | .other _ => False
  | _ => True

theorem extra_stmt {st : Reading} {s : Stmt} :
    (st.stmt tables s).extra = false ↔ st.extra = false ∧ Known s := by
  cases s with
  | compare left op right json =>
    cases left with
    | none => simp [Reading.stmt, Known]
    | some p =>
      rw [Reading.stmt, Known]
      split
      · next haddress =>
        split <;> simp [haddress]
      · next hno => simp [hno]
  | other => simp [Reading.stmt, Known]
  | _ => simp [Reading.stmt, Known]

theorem extra_foldl {st : Reading} : (stmts.foldl (Reading.stmt tables) st).extra = false ↔
    st.extra = false ∧ ∀ s ∈ stmts, Known s := by
  induction stmts generalizing st with
  | nil => simp
  | cons s stmts ih => rw [List.foldl_cons, ih, extra_stmt, List.forall_mem_cons, and_assoc]

theorem Reported.known (h : Reported doc r f src dst) : ∀ s ∈ r.expr, Known s := by
  have hreport := h.report
  unfold foreignDrop at hreport
  split at hreport
  · dsimp only at hreport
    split at hreport
    · obtain rfl := Option.some.inj hreport
      exact (extra_foldl.mp h.extra).2
    · cases hreport
  · cases hreport

theorem Reported.verdict (h : Reported doc r f src dst) : ∃ v, r.expr.find? isVerdict = some v := by
  have hreport := h.report
  unfold foreignDrop at hreport
  split at hreport
  · next hif =>
    obtain ⟨s, hs, hverdict⟩ := List.any_eq_true.mp hif.2
    exact Option.isSome_iff_exists.mp (List.find?_isSome.mpr ⟨s, hs, hverdict⟩)
  · cases hreport

/-! The run of a rule. -/

theorem effect_of_verdict (env : Env) (pkt : Packet) {v : Stmt} (h : isVerdict v = true) :
    v.effect env pkt = .dropped ∨ v.effect env pkt = .stop := by
  cases v with
  | drop => exact .inl rfl
  | reject type =>
    rw [Stmt.effect]
    split
    · exact .inr rfl
    · exact .inl rfl
  | _ => cases h

theorem effect_of_known (env : Env) (pkt : Packet) {v : Stmt} (hknown : Known v)
    (h : isVerdict v = false) :
    v.effect env pkt = .next ∨ v.effect env pkt = .stop := by
  cases v with
  | compare left op right json =>
    cases left with
    | none => cases hknown
    | some p =>
      have haddress : p.IsAddress op := hknown
      rw [Stmt.effect, if_pos haddress]
      split
      · exact .inl rfl
      · exact .inr rfl
  | limit l =>
    rw [Stmt.effect]
    split
    · exact .inl rfl
    · exact .inr rfl
  | counter | log => exact .inl rfl
  | drop | reject => cases h
  | other => cases hknown

/-- A rule drops when every statement before its verdict lets it go on to a verdict that applies. -/
theorem run_dropped_iff (hknown : ∀ s ∈ stmts, Known s) : run env pkt stmts = .dropped ↔
    (∀ s ∈ stmts.takeWhile (!isVerdict ·), s.effect env pkt = .next) ∧
      ∃ v, stmts.find? isVerdict = some v ∧ v.effect env pkt = .dropped := by
  induction stmts with
  | nil => simp [run]
  | cons s stmts ih =>
    rw [List.forall_mem_cons] at hknown
    by_cases hs : isVerdict s = true
    · rw [List.takeWhile_cons_of_neg (by simp [hs]), List.find?_cons_of_pos hs, run]
      rcases effect_of_verdict env pkt hs with he | he
      · simp [he]
      · simp [he]
    · have hs : isVerdict s = false := Bool.eq_false_iff.mpr hs
      rw [List.takeWhile_cons_of_pos (by simp [hs]), List.find?_cons_of_neg (by simp [hs]), run,
        List.forall_mem_cons]
      rcases effect_of_known env pkt hknown.1 hs with he | he
      · simp [he, ih hknown.2]
      · simp [he]

/-- The packet that gets through if any does: no limiter lets it, and it has no inner header. -/
def worst (x y : Ip) : Packet where
  saddr := x
  daddr := y
  isTcp := false
  inner := fun _ _ => none
  underLimit := fun _ => false
  inOther := fun _ _ => false
  misc := fun _ => .stop

theorem isVerdict_of_find? {v : Stmt} (h : r.expr.find? isVerdict = some v) : isVerdict v = true :=
  List.find?_some h

theorem not_isVerdict_of_guard {s : Stmt} (h : s ∈ guards r) : isVerdict s = false := by
  simpa using List.mem_takeWhile_imp h

theorem Plain.drops (h : Plain doc r src dst) (hr : Reported doc r f src dst)
    (hsrc : covers src pkt.saddr = true)
    (hdst : covers dst pkt.daddr = true) : r.Drops doc pkt := by
  refine (run_dropped_iff hr.known).mpr ⟨fun s hs => ?_, ?_⟩
  · have hknown := hr.known s ((List.takeWhile_prefix _).subset hs)
    cases s with
    | compare left op right json =>
      cases left with
      | none => cases hknown
      | some p =>
        have haddress : p.IsAddress op := hknown
        have hread : p.read pkt = some (if p.field = "saddr" then pkt.saddr else pkt.daddr) := by
          rw [Payload.read, h.outer p op right json hs]
        have hholds : right.holds (r.env doc pkt.underLimit pkt.inOther)
            (if p.field = "saddr" then pkt.saddr else pkt.daddr) = true := by
          apply holds_mono (env_le doc r pkt.underLimit pkt.inOther)
          rcases haddress.2.1 with hfield | hfield
          · rw [if_pos hfield]
            exact h.saddr p op right json hs hfield pkt.saddr hsrc
          · rw [if_neg (by rw [hfield]; decide)]
            exact h.daddr p op right json hs hfield pkt.daddr hdst
        rw [Stmt.effect, if_pos haddress, hread, Option.any_some, if_pos hholds]
    | limit l => exact (h.unlimited l hs).elim
    | counter | log => rfl
    | drop | reject => cases not_isVerdict_of_guard hs
    | other => cases hknown
  · obtain ⟨v, hv⟩ := hr.verdict
    refine ⟨v, hv, ?_⟩
    have hverdict := isVerdict_of_find? hv
    cases v with
    | drop => rfl
    | reject type =>
      have htype : type ≠ some "tcp reset" := fun he => h.verdict (he ▸ hv)
      rw [Stmt.effect, if_neg fun he => htype he.1]
    | _ => cases hverdict

/-- A rule that drops even the worst packets is plain. -/
theorem plain_of_drops (hr : Reported doc r f src dst) (hsrc : src ≠ []) (hdst : dst ≠ [])
    (h : ∀ pkt : Packet, covers src pkt.saddr = true → covers dst pkt.daddr = true →
      r.Drops doc pkt) :
    Plain doc r src dst := by
  have hrun : ∀ {x y}, covers src x = true → covers dst y = true →
      (∀ s ∈ guards r, s.effect (r.env doc (fun _ => false) fun _ _ => false) (worst x y) = .next) ∧
        ∃ v, r.expr.find? isVerdict = some v ∧
          v.effect (r.env doc (fun _ => false) fun _ _ => false) (worst x y) = .dropped :=
    fun hx hy => (run_dropped_iff hr.known).mp (h (worst _ _) hx hy)
  obtain ⟨x₀, hx₀⟩ := exists_covers hsrc
  obtain ⟨y₀, hy₀⟩ := exists_covers hdst
  -- a match that goes on has read an address of the outer header, and the expression holds of it
  have hmatch : ∀ {x y}, covers src x = true → covers dst y = true → ∀ {p op right json},
      .compare (some p) op right json ∈ guards r → ∃ a, p.read (worst x y) = some a ∧
        Sure doc r right a := by
    intro x y hx hy p op right json hs
    have haddress : p.IsAddress op := hr.known _ ((List.takeWhile_prefix _).subset hs)
    have heffect := (hrun hx hy).1 _ hs
    rw [Stmt.effect, if_pos haddress] at heffect
    split at heffect
    · next hany =>
      obtain ⟨a, ha, hholds⟩ := (Option.any_eq_true ..).mp hany
      exact ⟨a, ha, hholds⟩
    · cases heffect
  have houter : ∀ p op right json, .compare (some p) op right json ∈ guards r →
      p.tunnel = none := by
    intro p op right json hs
    obtain ⟨a, ha, -⟩ := hmatch hx₀ hy₀ hs
    cases htunnel : p.tunnel with
    | none => rfl
    | some tunnel =>
      rw [Payload.read, htunnel] at ha
      cases ha
  constructor
  · intro l hs
    cases (hrun hx₀ hy₀).1 _ hs
  · intro hv
    obtain ⟨v, hv', heffect⟩ := (hrun hx₀ hy₀).2
    obtain rfl := Option.some.inj (hv.symm.trans hv')
    cases heffect
  · exact houter
  · intro p op right json hs hfield x hx
    obtain ⟨a, ha, hsure⟩ := hmatch hx hy₀ hs
    rw [Payload.read, houter p op right json hs, if_pos hfield] at ha
    obtain rfl := Option.some.inj ha
    exact hsure
  · intro p op right json hs hfield y hy
    obtain ⟨a, ha, hsure⟩ := hmatch hx₀ hy hs
    rw [Payload.read, houter p op right json hs, if_neg (by rw [hfield]; decide)] at ha
    obtain rfl := Option.some.inj ha
    exact hsure

/-! The verdict. -/

theorem dropLoop_blocked {drops : List ForeignDrop} {part : Option DropRef} {ref : DropRef}
    (h : dropLoop s d drops part = ⟨true, false, some ref⟩) :
    ∃ f ∈ drops, ∃ src dst, f.src = some src ∧
      f.dst = some dst ∧ Inside src s ∧ Inside dst d ∧ f.extra = false ∧ f.ref = ref := by
  induction drops generalizing part with
  | nil => cases h
  | cons f drops ih =>
    have hlater : ∀ {part}, dropLoop s d drops part = ⟨true, false, some ref⟩ → ∃ f' ∈ f :: drops,
      ∃ src dst,
        f'.src = some src ∧ f'.dst = some dst ∧ Inside src s ∧ Inside dst d ∧ f'.extra = false ∧
          f'.ref = ref := by
      intro part h
      obtain ⟨f', hf', hrest⟩ := ih h
      exact ⟨f', List.mem_cons_of_mem _ hf', hrest⟩
    unfold dropLoop at h
    split at h
    · next src dst hsrc hdst =>
      dsimp only at h
      split at h
      · next hfull =>
        simp only [Bool.and_eq_true, List.any_eq_true, decide_eq_true_eq, Bool.not_eq_true']
          at hfull
        obtain ⟨⟨hs, hd⟩, hextra⟩ := hfull
        cases h
        exact ⟨f, List.mem_cons_self, src, dst, hsrc, hdst, hs, hd, hextra, rfl⟩
      · exact hlater h
    · exact hlater h

theorem mem_parse :
    f ∈ parseForeignForwardDrops (some doc) ↔ ∃ r, .rule r ∈ doc ∧ foreignDrop doc r = some f := by
  rw [parseForeignForwardDrops, List.mem_filterMap]
  constructor
  · rintro ⟨item, hitem, hf⟩
    cases item with
    | rule r => exact ⟨r, hitem, hf⟩
    | _ => cases hf
  · rintro ⟨r, hr, hf⟩
    exact ⟨.rule r, hr, hf⟩

theorem truthful_of_unconditional (h : Unconditional doc) : Truthful doc := by
  have hreports : ∀ r f src dst, Reported doc r f src dst → ∀ pkt : Packet,
    covers src pkt.saddr = true →
      covers dst pkt.daddr = true → r.Drops doc pkt := fun r f src dst hr pkt hsrc hdst =>
    (h r f src dst hr (ne_nil_of_covers hsrc) (ne_nil_of_covers hdst)).drops hr hsrc hdst
  refine ⟨hreports, fun src dst s d ref hs hd hblocked => ?_⟩
  rw [manualDropVerdict, hs, hd] at hblocked
  obtain ⟨f, hf, src', dst', hsrc, hdst, hin, hin', hextra, href⟩ := dropLoop_blocked hblocked
  obtain ⟨r, hr, hreport⟩ := mem_parse.mp hf
  exact ⟨r, f, hr, hreport, href, fun pkt hps hpd =>
    hreports r f src' dst' ⟨hr, hreport, hextra, hsrc, hdst⟩ pkt (hin.covers hps) (hin'.covers hpd)⟩

/-- Expressions are read right; and what is reported of a ruleset, and the verdicts on it, are true
exactly when every rule that is reported as unconditional is. -/
theorem foreign_drops_exact_iff (doc : Ruleset) (hdistinct : SetsDistinct doc) :
    (∀ r underLimit inOther, (∀ l, underLimit l = true) →
      ∀ e cs, nftAddrToCidrs (tableSets doc r) e = some cs →
      ∀ x, covers cs x = true ↔ e.holds (r.env doc underLimit inOther) x = true) ∧
    (Truthful doc ↔ Unconditional doc) := by
  refine ⟨fun r underLimit inOther hopen e cs h x => ?_, fun h => ?_, truthful_of_unconditional⟩
  · exact nftAddrToCidrs_exact (tableSets_agrees hdistinct hopen inOther) hopen e h
  · exact fun r f src dst hr hsrc hdst => plain_of_drops hr hsrc hdst (h.reports r f src dst hr)

/-! A drop rule between two networks, with and without a limit before its verdict. -/

def addressMatch (field : String) (net : AddrExpr) : Stmt :=
  .compare (some ⟨none, "ip", field⟩) "==" net ""

def separation (before : List Stmt) : Rule where
  family := "inet"
  table := "filter"
  chain := "forward"
  handle := some 7
  comment := none
  expr := [addressMatch "saddr" (.net "10.1.0.0" 16), addressMatch "daddr" (.net "10.2.0.0" 16)] ++
    before ++ [.drop]

def rulesetWith (before : List Stmt) : Ruleset :=
  [.chain ⟨"inet", "filter", "forward", some "forward"⟩, .rule (separation before)]

def separationReport : ForeignDrop where
  family := "inet"
  table := "filter"
  chain := "forward"
  handle := some 7
  comment := none
  srcSet := none
  dstSet := none
  src := some [PrefixBlock.around 0x0a010000#32 16 (by decide)]
  dst := some [PrefixBlock.around 0x0a020000#32 16 (by decide)]
  extra := false

theorem limit_not_truthful : ¬ Truthful (rulesetWith [.limit "10/second"]) := by
  intro h
  have hreport : foreignDrop (rulesetWith [.limit "10/second"]) (separation [.limit "10/second"]) =
      some separationReport := by
    decide +kernel
  have hdrops :=
    h.reports _ _ _ _ ⟨by simp [rulesetWith], hreport, rfl, rfl, rfl⟩
      (worst 0x0a010001#32 0x0a020001#32)
    (by decide +kernel) (by decide +kernel)
  exact absurd hdrops (by unfold Rule.Drops; decide +kernel)

theorem counter_unconditional : Unconditional (rulesetWith [.counter]) := by
  intro r f src dst hr _ _
  obtain rfl : r = separation [.counter] := by simpa [rulesetWith] using hr.mem
  have hreport : foreignDrop (rulesetWith [.counter]) (separation [.counter]) =
      some separationReport := by decide +kernel
  obtain rfl := Option.some.inj (hreport.symm.trans hr.report)
  obtain rfl := Option.some.inj hr.src
  obtain rfl := Option.some.inj hr.dst
  have hguards : guards (separation [.counter]) =
      [addressMatch "saddr" (.net "10.1.0.0" 16), addressMatch "daddr" (.net "10.2.0.0" 16),
        .counter] := rfl
  have hfind : (separation [.counter]).expr.find? isVerdict = some .drop := rfl
  have hsrc : canonicalCidr ("10.1.0.0" ++ "/" ++ toString 16) =
      some (PrefixBlock.around 0x0a010000#32 16 (by decide)) := by
    decide +kernel
  have hdst : canonicalCidr ("10.2.0.0" ++ "/" ++ toString 16) =
      some (PrefixBlock.around 0x0a020000#32 16 (by decide)) := by
    decide +kernel
  have hmatch : ∀ {p op right json},
    .compare (some p) op right json ∈ guards (separation [.counter]) → p.tunnel = none ∧
      (p.field = "saddr" ∧ right = .net "10.1.0.0" 16 ∨ p.field = "daddr" ∧
        right = .net "10.2.0.0" 16) := by
    intro p op right json hs
    simp only [hguards, addressMatch, List.mem_cons, Stmt.compare.injEq, Option.some.injEq,
      List.not_mem_nil, or_false,
      reduceCtorEq] at hs
    rcases hs with ⟨rfl, -, rfl, -⟩ | ⟨rfl, -, rfl, -⟩ <;> simp
  constructor
  · intro l hl
    simp [hguards, addressMatch] at hl
  · simp [hfind]
  · exact fun p op right json hs => (hmatch hs).1
  · intro p op right json hs hfield x hx
    rcases (hmatch hs).2 with ⟨-, rfl⟩ | ⟨hother, -⟩
    · exact (mem_of_net hsrc).mp (covers_singleton.mp hx)
    · exact absurd (hfield.symm.trans hother) (by decide)
  · intro p op right json hs hfield y hy
    rcases (hmatch hs).2 with ⟨hother, -⟩ | ⟨-, rfl⟩
    · exact absurd (hfield.symm.trans hother) (by decide)
    · exact (mem_of_net hdst).mp (covers_singleton.mp hy)

theorem foreign_drops_exact_iff_counter :
    SetsDistinct (rulesetWith [.counter]) ∧ Truthful (rulesetWith [.counter]) := by
  have hdistinct : SetsDistinct (rulesetWith [.counter]) := by
    intro s s' hs
    simp [rulesetWith] at hs
  exact ⟨hdistinct, (foreign_drops_exact_iff _ hdistinct).2.mpr counter_unconditional⟩

end FloppyGuard.SiteIsolation.ForeignDrops
