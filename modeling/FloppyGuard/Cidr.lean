import FloppyGuard.Lib.Prefix
import FloppyGuard.Lib.Text
import Mathlib.Tactic.NormNum

/-! IPv4 text and CIDR arithmetic of `agent-ingress-rules.js`. A canonical CIDR
string is represented by the block it denotes; `render` is the string. -/
namespace FloppyGuard

abbrev Ip := BitVec 32

abbrev Cidr := PrefixBlock 32

/-- `(0xffffffff << (32 - prefix)) >>> 0`, with the shift by 32 caught first. -/
def prefixMask (p : ℕ) : Ip := if p = 0 then 0 else 0xffffffff#32 <<< (32 - p)

theorem prefixMask_eq (p : ℕ) : prefixMask p = PrefixBlock.netmask 32 p := by
  unfold prefixMask PrefixBlock.netmask
  split
  · subst p; decide
  · rfl

/-- `IPV4_RE`: four dotted groups of one to three digits, each at most 255. -/
def ipToInt (ip : List Char) : Option Ip :=
  match ip.splitOn '.' with
  | [a, b, c, d] =>
    match Text.number 3 a, Text.number 3 b, Text.number 3 c, Text.number 3 d with
    | some a, some b, some c, some d =>
      if a > 255 ∨ b > 255 ∨ c > 255 ∨ d > 255 then none
      else some (BitVec.ofNat 32 ((a <<< 24) + (b <<< 16) + (c <<< 8) + d))
    | _, _, _, _ => none
  | _ => none

def octets (n : Ip) : List ℕ :=
  [(n >>> 24 &&& 255).toNat, (n >>> 16 &&& 255).toNat, (n >>> 8 &&& 255).toNat, (n &&& 255).toNat]

def intToIp (n : Ip) : List Char := ['.'].intercalate ((octets n).map (Nat.toDigits 10))

/-- Host or CIDR text to its canonical block: host bits masked off, a bare host
gets `/32`, anything else is refused. -/
def canonicalCidr (value : String) : Option Cidr :=
  let s := Text.trim value.toList
  if s = [] then none
  else match s.splitOn '/' with
    | [addr] => (ipToInt addr).map fun ip => .around ip 32 le_rfl
    | [addr, prefixStr] =>
      match ipToInt addr, Text.number 2 prefixStr with
      | some ip, some p =>
        if hp : p ≤ 32 then
          some ⟨ip &&& prefixMask p, p, hp, by
            rw [prefixMask_eq]; exact PrefixBlock.and_netmask_netmask le_rfl ip⟩
        else none
      | _, _ => none
    | _ => none

namespace Cidr

def toText (c : Cidr) : List Char := intToIp c.base ++ '/' :: Nat.toDigits 10 c.len

def render (c : Cidr) : String := String.ofList c.toText

end Cidr

/-- Containment on CIDR text: false unless both sides are canonicalisable. -/
def cidrContains (outer inner : String) : Bool :=
  match canonicalCidr outer, canonicalCidr inner with
  | some o, some i =>
    if i.len < o.len then false else i.base &&& prefixMask o.len == o.base &&& prefixMask o.len
  | _, _ => false

theorem octets_lt (n : Ip) : ∀ k ∈ octets n, k < 256 := by
  have h (m : Ip) : (m &&& 255).toNat < 256 := by
    rw [BitVec.toNat_and]
    exact Nat.and_lt_two_pow _ (by decide : (255#32).toNat < 2 ^ 8)
  intro k hk
  simp only [octets, List.mem_cons, List.not_mem_nil, or_false] at hk
  rcases hk with rfl | rfl | rfl | rfl <;> exact h _

theorem octets_join (n : Ip) : ∃ a b c d, octets n = [a, b, c, d] ∧
    BitVec.ofNat 32 ((a <<< 24) + (b <<< 16) + (c <<< 8) + d) = n := by
  refine ⟨_, _, _, _, rfl, ?_⟩
  have h (m : Ip) : (m &&& 255).toNat = m.toNat % 256 := by
    rw [BitVec.toNat_and]
    exact Nat.and_two_pow_sub_one_eq_mod m.toNat 8
  apply BitVec.eq_of_toNat_eq
  have hn := n.isLt
  simp only [h, BitVec.toNat_ofNat, BitVec.toNat_ushiftRight, Nat.shiftRight_eq_div_pow,
    Nat.shiftLeft_eq]
  omega

theorem number_octet {k : ℕ} (hk : k < 256) : Text.number 3 (Nat.toDigits 10 k) = some k :=
  Text.number_toDigits (by omega) (by omega)

theorem ipToInt_intToIp (n : Ip) : ipToInt (intToIp n) = some n := by
  obtain ⟨a, b, c, d, ho, hn⟩ := octets_join n
  have hlt := octets_lt n
  have hsplit : (intToIp n).splitOn '.' = (octets n).map (Nat.toDigits 10) := by
    apply List.splitOn_intercalate
    · intro l hl
      obtain ⟨k, -, rfl⟩ := List.mem_map.mp hl
      exact Text.not_mem_toDigits (by decide)
    · simp [octets]
  rw [ho] at hlt hsplit
  simp only [List.forall_mem_cons] at hlt
  obtain ⟨ha, hb, hc, hd, -⟩ := hlt
  rw [ipToInt, hsplit]
  simp only [List.map_cons, List.map_nil, number_octet ha, number_octet hb, number_octet hc,
    number_octet hd, hn]
  rw [if_neg (by omega)]

/-- What `intToIp` prints has no slash and no white space. -/
theorem mem_intToIp {n : Ip} {c : Char} (h : c ∈ intToIp n) : c = '.' ∨ c.isDigit := by
  simp only [intToIp, octets, List.map_cons, List.map_nil, List.intercalate, List.intersperse,
    List.flatten_cons, List.flatten_nil, List.mem_append, List.mem_singleton, List.append_nil] at h
  rcases h with h | h | h | h | h | h | h <;>
    first | exact Or.inl h | exact Or.inr (Text.mem_toDigits_isDigit h)

theorem mem_toText {b : Cidr} {c : Char} (h : c ∈ b.toText) : c = '.' ∨ c = '/' ∨ c.isDigit := by
  simp only [Cidr.toText, List.mem_append, List.mem_cons] at h
  rcases h with h | h | h
  · rcases mem_intToIp h with h | h <;> simp [h]
  · simp [h]
  · exact Or.inr (Or.inr (Text.mem_toDigits_isDigit h))

theorem isSpace_of_mem_toText {b : Cidr} : ∀ c ∈ b.toText, Text.isSpace c = false := by
  intro c hc
  rcases mem_toText hc with rfl | rfl | h
  · decide
  · decide
  · exact Text.isSpace_eq_false_of_isDigit h

theorem splitOn_toText (b : Cidr) :
    b.toText.splitOn '/' = [intToIp b.base, Nat.toDigits 10 b.len] := by
  have h : b.toText = ['/'].intercalate [intToIp b.base, Nat.toDigits 10 b.len] := by
    simp [Cidr.toText, List.intercalate]
  rw [h]
  apply List.splitOn_intercalate
  · intro l hl
    simp only [List.mem_cons, List.not_mem_nil, or_false] at hl
    rcases hl with rfl | rfl
    · intro hc
      rcases mem_intToIp hc with h | h <;> simp at h
    · exact Text.not_mem_toDigits (by decide)
  · simp

/-- Canonical text reads back as itself. -/
@[simp] theorem canonicalCidr_render (b : Cidr) : canonicalCidr b.render = some b := by
  have hne : b.toText ≠ [] := by simp [Cidr.toText]
  have hlen : Text.number 2 (Nat.toDigits 10 b.len) = some b.len :=
    Text.number_toDigits (by omega) (by have := b.len_le; omega)
  rw [canonicalCidr, Cidr.render, String.toList_ofList, Text.trim_of_forall isSpace_of_mem_toText]
  simp only [if_neg hne, splitOn_toText, ipToInt_intToIp, hlen, b.len_le, dite_true]
  congr 1
  ext1
  · exact (congrArg (b.base &&& ·) (prefixMask_eq b.len)).trans b.masked
  · rfl

theorem render_injective : Function.Injective Cidr.render := by
  intro a b h
  simpa using congrArg canonicalCidr h

theorem cidrContains_iff {outer inner : String} : cidrContains outer inner = true ↔
    ∃ o i, canonicalCidr outer = some o ∧ canonicalCidr inner = some i ∧ o.Contains i := by
  unfold cidrContains
  cases ho : canonicalCidr outer with
  | none => simp
  | some o =>
    cases hi : canonicalCidr inner with
    | none => simp
    | some i =>
      have hm := o.masked
      simp only [prefixMask_eq, hm, PrefixBlock.Contains, Option.some.injEq]
      by_cases h : i.len < o.len
      · simp [h]
      · simp [h]
        omega

/-- On canonical text the string function is containment of blocks. -/
@[simp] theorem cidrContains_render (o i : Cidr) :
    cidrContains o.render i.render = decide (o.Contains i) := by
  rw [Bool.eq_iff_iff, cidrContains_iff]
  simp

theorem mem_of_ipToInt {s : List Char} {x : Ip} {d : Char} (h : ipToInt s = some x) (hd : d ∈ s) :
    d = '.' ∨ d.isDigit = true := by
  unfold ipToInt at h
  split at h
  · next a b c e hs =>
    split at h
    · next ha hb hc he =>
      rcases Text.mem_splitOn (a := '.') hd with rfl | ⟨part, hpart, hd⟩
      · exact Or.inl rfl
      · right
        rw [hs] at hpart
        simp only [List.mem_cons, List.not_mem_nil, or_false] at hpart
        rcases hpart with rfl | rfl | rfl | rfl
        · exact (Text.digits_of_number ha).2 d hd
        · exact (Text.digits_of_number hb).2 d hd
        · exact (Text.digits_of_number hc).2 d hd
        · exact (Text.digits_of_number he).2 d hd
    · cases h
  · cases h

/-- Canonicalisable text is digits, dots and a slash between white space. -/
theorem mem_of_canonicalCidr {v : String} {c : Cidr} {d : Char} (h : canonicalCidr v = some c)
    (hd : d ∈ Text.trim v.toList) :
    d = '.' ∨ d = '/' ∨ d.isDigit = true := by
  unfold canonicalCidr at h
  dsimp only at h
  split at h
  · cases h
  · rcases Text.mem_splitOn (a := '/') hd with hd | ⟨part, hpart, hd⟩
    · exact Or.inr (Or.inl hd)
    · split at h
      · next addr hs =>
        obtain ⟨ip, hip, -⟩ := Option.map_eq_some_iff.mp h
        rw [hs, List.mem_singleton] at hpart
        exact (mem_of_ipToInt hip (hpart ▸ hd)).imp_right Or.inr
      · next addr pre hs =>
        split at h
        · next ip p hip hp =>
          rw [hs, List.mem_pair] at hpart
          rcases hpart with rfl | rfl
          · exact (mem_of_ipToInt hip hd).imp_right Or.inr
          · exact Or.inr (Or.inr ((Text.digits_of_number hp).2 d hd))
        · cases h
      · cases h

open Text in
/-- A text with a prefix behind a slash. -/
theorem canonicalCidr_slash {v : String} {c : Cidr} {p : ℕ}
    (h : canonicalCidr (v ++ "/" ++ String.ofList (Nat.toDigits 10 p)) = some c) :
    ∃ ip, ipToInt (trim v.toList) = some ip ∧ p ≤ 32 ∧ c.base = ip &&& prefixMask p ∧
    c.len = p := by
  have hdigits : '/' ∉ Nat.toDigits 10 p := not_mem_toDigits (by decide)
  have htrim : trim (v ++ "/" ++ String.ofList (Nat.toDigits 10 p)).toList =
      v.toList.dropWhile isSpace ++ '/' :: Nat.toDigits 10 p := by
    have hslash : "/".toList = ['/'] := by decide
    rw [String.toList_append, String.toList_append, hslash, String.toList_ofList, List.append_assoc,
      List.singleton_append]
    refine trim_append nofun (fun c hc => ?_) fun c hc => ?_
    · rw [← Option.some.inj (Option.mem_def.mp hc)]
      decide
    · rw [List.getLast?_cons_of_ne_nil Nat.toDigits_ne_nil] at hc
      exact isSpace_eq_false_of_isDigit (mem_toDigits_isDigit (List.mem_of_mem_getLast? hc))
  have hjoin : ['/'].intercalate
    ((v.toList.dropWhile isSpace ++ '/' :: Nat.toDigits 10 p).splitOn '/') =
      v.toList.dropWhile isSpace ++ '/' :: Nat.toDigits 10 p := List.intercalate_splitOn '/'
  unfold canonicalCidr at h
  rw [htrim] at h
  dsimp only at h
  split at h
  · cases h
  split at h
  · next addr hs =>
    have haddr : '/' ∉ addr := not_mem_of_mem_splitOn addr (hs ▸ List.mem_singleton_self addr)
    have hall : addr = v.toList.dropWhile isSpace ++ '/' :: Nat.toDigits 10 p := by
      rw [← hjoin, hs]
      simp [List.intercalate]
    exact (haddr (hall ▸ List.mem_append_right _ List.mem_cons_self)).elim
  · next addr prefixStr hs =>
    have hpre : '/' ∉ prefixStr :=
      not_mem_of_mem_splitOn prefixStr (by rw [hs]; exact List.mem_pair.mpr (.inr rfl))
    have hcut : addr ++ '/' :: prefixStr = v.toList.dropWhile isSpace ++ '/' ::
        Nat.toDigits 10 p := by
      rw [← hjoin, hs]
      simp [List.intercalate]
    obtain ⟨rfl, rfl⟩ := cut_last_inj hpre hdigits hcut
    split at h
    · next ip q hip hq =>
      split at h
      · next hq32 =>
        obtain rfl := Option.some.inj h
        have hplain : ∀ d ∈ v.toList.dropWhile isSpace, isSpace d = false := by
          intro d hd
          rcases mem_of_ipToInt hip hd with rfl | hd
          · decide
          · exact isSpace_eq_false_of_isDigit hd
        have hsame : trim v.toList = v.toList.dropWhile isSpace := by
          rw [← trim_of_forall hplain, trim, trim, dropWhile_eq_self head?_dropWhile_isSpace]
        have hqp : q = p := by
          unfold number at hq
          split at hq
          · rw [Nat.ofDigitChars_ten_toDigits] at hq
            exact (Option.some.inj hq).symm
          · cases hq
        exact ⟨ip, by rw [hsame, hip], hqp ▸ hq32, congrArg (fun n => ip &&& prefixMask n) hqp, hqp⟩
      · cases h
    · cases h
  · cases h

open Text in
/-- An address with a prefix names the block around it. -/
theorem canonicalCidr_text {addr : List Char} {ip : Ip} {p : ℕ} (h : ipToInt addr = some ip)
    (hp : p ≤ 32) :
    canonicalCidr (String.ofList (addr ++ '/' :: Nat.toDigits 10 p)) = some (.around ip p hp) := by
  have hplain : ∀ c ∈ addr ++ '/' :: Nat.toDigits 10 p, isSpace c = false := by
    intro c hc
    rcases List.mem_append.mp hc with hc | hc
    · rcases mem_of_ipToInt h hc with rfl | hc
      · decide
      · exact isSpace_eq_false_of_isDigit hc
    · rcases List.mem_cons.mp hc with rfl | hc
      · decide
      · exact isSpace_eq_false_of_isDigit (mem_toDigits_isDigit hc)
  have hslash : '/' ∉ addr := by
    intro hc
    rcases mem_of_ipToInt h hc with hc | hc <;> exact absurd hc (by decide)
  have hsplit : (addr ++ '/' :: Nat.toDigits 10 p).splitOn '/' = [addr, Nat.toDigits 10 p] := by
    rw [List.splitOn_append_cons_self_of_not_mem hslash,
      List.splitOn_eq_singleton (not_mem_toDigits (by decide))]
  have hnum : number 2 (Nat.toDigits 10 p) = some p := number_toDigits (by omega) (by omega)
  rw [canonicalCidr, String.toList_ofList, trim_of_forall hplain]
  simp only [hsplit, h, hnum, hp, dite_true]
  rw [if_neg (by simp)]
  exact congrArg some (PrefixBlock.ext (congrArg (ip &&& ·) (prefixMask_eq p)) rfl)

/-- Text that ends in `/32` names a single host. -/
theorem len_of_host_text {text : String} {h : Cidr} (hc : canonicalCidr (text ++ "/32") = some h) :
    h.len = 32 := by
  have hslash : "/32" = "/" ++ String.ofList (Nat.toDigits 10 32) := by decide
  rw [hslash, ← String.append_assoc] at hc
  obtain ⟨-, -, -, -, hlen⟩ := canonicalCidr_slash hc
  exact hlen

example : canonicalCidr " 192.168.1.7/24 " = canonicalCidr "192.168.1.0/24" := by decide

end FloppyGuard
