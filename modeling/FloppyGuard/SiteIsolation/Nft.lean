import FloppyGuard.Cidr

/-! `nft -j list ruleset`: the items of a ruleset as JSON has them, and what a rule does with a
packet. -/
namespace FloppyGuard.Nft

open Text

/-- A limiter, by its JSON text. -/
abbrev Limit := String

/-- The right side of an address match, or an element of a set. -/
inductive AddrExpr
  /-- an address, or `@` and the name of a set -/
  | text (value : String)
  /-- `{"prefix": {"addr", "len"}}` -/
  | net (addr : String) (len : ℕ)
  | set (elems : List AddrExpr)
  /-- `{"elem": {"val", …}}`: an element with a timeout, a comment, a counter or a limit of its own
  -/
  | elem (val : AddrExpr) (limit : Option Limit)
  | range (lo hi : String)
  | other (json : String)

structure Payload where
  /-- `some` for a field of the header inside a tunnel -/
  tunnel : Option String
  protocol : String
  field : String
deriving DecidableEq

inductive Stmt
  /-- `{"match": {"left", "op", "right"}}`; `none` where the left side is no payload field -/
  | compare (left : Option Payload) (op : String) (right : AddrExpr) (json : String)
  | counter
  | log
  | limit (l : Limit)
  | drop
  | reject (type : Option String)
  | other (json : String)

structure Chain where
  family : String
  table : String
  name : String
  hook : Option String

structure NamedSet where
  family : String
  table : String
  name : String
  type : Option String
  elem : List AddrExpr

structure Rule where
  family : String
  table : String
  chain : String
  handle : Option ℕ
  comment : Option String
  expr : List Stmt

inductive Item
  | chain (c : Chain)
  | set (s : NamedSet)
  | rule (r : Rule)
  | other

abbrev Ruleset := List Item

/-! The packets. -/

/-- What becomes of a packet at a statement. -/
inductive Outcome
  | next
  /-- the rule does not apply -/
  | stop
  | dropped
  | verdict (json : String)
deriving DecidableEq

/-- A packet as it reaches a rule, and the state of the limiters then. -/
structure Packet where
  saddr : Ip
  daddr : Ip
  isTcp : Bool
  /-- the addresses inside a tunnel, by the tunnel and the field -/
  inner : String → String → Option Ip
  underLimit : Limit → Bool
  /-- whether an address is in what an expression outside this language denotes -/
  inOther : String → Ip → Bool
  /-- what a statement or a match outside this language does -/
  misc : String → Outcome

/-- What an address expression is read in. -/
structure Env where
  named : String → Ip → Bool
  underLimit : Limit → Bool
  inOther : String → Ip → Bool

/-- The text of an address, or of a network with its prefix. -/
def inText (value : String) (x : Ip) : Bool :=
  if '/' ∈ value.toList then (canonicalCidr value).any fun c => decide (x ∈ c)
  else ipToInt (trim value.toList) = some x

mutual
/-- The address is one the expression matches. -/
def AddrExpr.holds (env : Env) : AddrExpr → Ip → Bool
  | .text value, x =>
    match value.toList with
    | '@' :: name => env.named (String.ofList name) x
    | _ => inText value x
  | .net addr len, x =>
    match ipToInt (trim addr.toList) with
    | some ip => len ≤ 32 && x &&& prefixMask len == ip &&& prefixMask len
    | none => false
  | .set elems, x => AddrExpr.holdsAny env elems x
  | .elem val limit, x => val.holds env x && limit.all env.underLimit
  | .range lo hi, x =>
    match ipToInt (trim lo.toList), ipToInt (trim hi.toList) with
    | some lo, some hi => lo ≤ x && x ≤ hi
    | _, _ => false
  | .other json, x => env.inOther json x

def AddrExpr.holdsAny (env : Env) : List AddrExpr → Ip → Bool
  | [], _ => false
  | e :: es, x => e.holds env x || AddrExpr.holdsAny env es x
end

/-- `saddr` and `daddr` of the IPv4 header; `in` is the operator nft writes where it was left out.
-/
def Payload.IsAddress (p : Payload) (op : String) : Prop :=
  p.protocol = "ip" ∧ (p.field = "saddr" ∨ p.field = "daddr") ∧ (op = "==" ∨ op = "in")

instance (p : Payload) (op : String) : Decidable (p.IsAddress op) :=
  inferInstanceAs (Decidable (_ ∧ (_ ∨ _) ∧ (_ ∨ _)))

/-- The address a match reads off the packet. -/
def Payload.read (p : Payload) (pkt : Packet) : Option Ip :=
  match p.tunnel with
  | some tunnel => pkt.inner tunnel p.field
  | none => some (if p.field = "saddr" then pkt.saddr else pkt.daddr)

/-- A `tcp reset` answers TCP packets only; the rule does not apply to others. -/
def Stmt.effect (env : Env) (pkt : Packet) : Stmt → Outcome
  | .compare (some p) op right json =>
    if p.IsAddress op then
      if (p.read pkt).any (right.holds env) then .next else .stop
    else pkt.misc json
  | .compare none _ _ json => pkt.misc json
  | .counter | .log => .next
  | .limit l => if pkt.underLimit l then .next else .stop
  | .drop => .dropped
  | .reject type => if type = some "tcp reset" ∧ pkt.isTcp = false then .stop else .dropped
  | .other json => pkt.misc json

/-- The statements run until one does not go on. -/
def run (env : Env) (pkt : Packet) : List Stmt → Outcome
  | [] => .stop
  | s :: rest =>
    match s.effect env pkt with
    | .next => run env pkt rest
    | outcome => outcome

/-- Membership in the sets of a table. The elements of a set name no other set. -/
def named (doc : Ruleset) (family table : String) (underLimit : Limit → Bool)
    (inOther : String → Ip → Bool)
    (name : String) (x : Ip) : Bool :=
  doc.any fun
    | .set s => s.family = family && s.table = table && s.name = name &&
      AddrExpr.holdsAny ⟨fun _ _ => false, underLimit, inOther⟩ s.elem x
    | _ => false

def Rule.env (doc : Ruleset) (r : Rule) (underLimit : Limit → Bool) (inOther : String → Ip → Bool) :
    Env where
  named := named doc r.family r.table underLimit inOther
  underLimit
  inOther

/-- The rule drops or rejects the packet when it reaches it. -/
def Rule.Drops (doc : Ruleset) (r : Rule) (pkt : Packet) : Prop :=
  run (r.env doc pkt.underLimit pkt.inOther) pkt r.expr = .dropped

/-! What a limiter can take away. -/

variable {env env' : Env} {e : AddrExpr} {es : List AddrExpr} {x : Ip}

/-- What matches matches also where more is let through. -/
structure Env.Le (env env' : Env) : Prop where
  named : ∀ n x, env.named n x = true → env'.named n x = true
  underLimit : ∀ l, env.underLimit l = true → env'.underLimit l = true
  inOther : ∀ json x, env.inOther json x = true → env'.inOther json x = true

mutual
theorem holds_mono (h : env.Le env') :
    ∀ (e : AddrExpr), e.holds env x = true → e.holds env' x = true
  | .text value => by
    unfold AddrExpr.holds
    split
    · exact h.named _ _
    · exact id
  | .net addr len => by
    unfold AddrExpr.holds
    exact id
  | .set elems => by
    unfold AddrExpr.holds
    exact holdsAny_mono h elems
  | .elem val limit => by
    unfold AddrExpr.holds
    rw [Bool.and_eq_true, Bool.and_eq_true]
    refine And.imp (holds_mono h val) fun hlimit => ?_
    cases limit with
    | none => rfl
    | some l => exact h.underLimit l hlimit
  | .range lo hi => by
    unfold AddrExpr.holds
    exact id
  | .other json => by
    unfold AddrExpr.holds
    exact h.inOther json x

theorem holdsAny_mono (h : env.Le env') : ∀ (es : List AddrExpr),
    AddrExpr.holdsAny env es x = true → AddrExpr.holdsAny env' es x = true
  | [] => id
  | e :: es => by
    unfold AddrExpr.holdsAny
    rw [Bool.or_eq_true, Bool.or_eq_true]
    exact Or.imp (holds_mono h e) (holdsAny_mono h es)
end

/-- The worst state of the limiters is below every other. -/
theorem env_le (doc : Ruleset) (r : Rule) (underLimit : Limit → Bool)
    (inOther : String → Ip → Bool) :
    (r.env doc (fun _ => false) fun _ _ => false).Le (r.env doc underLimit inOther) := by
  have hlimit : ∀ l : Limit, false = true → underLimit l = true := nofun
  have hother : ∀ (json : String) (x : Ip), false = true → inOther json x = true := nofun
  have hle : Env.Le ⟨fun _ _ => false, fun _ => false, fun _ _ => false⟩ ⟨fun _ _ => false,
      underLimit, inOther⟩ :=
    ⟨fun _ _ => id, hlimit, hother⟩
  refine ⟨fun n x h => ?_, hlimit, hother⟩
  obtain ⟨item, hitem, h⟩ := List.any_eq_true.mp h
  refine List.any_eq_true.mpr ⟨item, hitem, ?_⟩
  cases item with
  | set s =>
    simp only [Bool.and_eq_true] at h ⊢
    exact ⟨h.1, holdsAny_mono hle s.elem h.2⟩
  | _ => cases h

end FloppyGuard.Nft
