import FloppyGuard.Cidr
import FloppyGuard.Lib.Word32

/-! The CIDR functions of the source on the numbers it computes with: the operators cut to 32 bits,
some of them signed. -/
namespace FloppyGuard.CidrNumbers

open Text Word32

/-! `agent-ingress-rules.js` -/

/-- The groups of `IPV4_RE`. -/
def groups (ip : List Char) : Option (ℕ × ℕ × ℕ × ℕ) :=
  match ip.splitOn '.' with
  | [a, b, c, d] =>
    match number 3 a, number 3 b, number 3 c, number 3 d with
    | some a, some b, some c, some d => some (a, b, c, d)
    | _, _, _, _ => none
  | _ => none

def tooLarge (g : ℕ × ℕ × ℕ × ℕ) : Bool :=
  255 < g.1 || 255 < g.2.1 || 255 < g.2.2.1 || 255 < g.2.2.2

/-- `((a << 24) >>> 0) + (b << 16) + (c << 8) + d` -/
def joinOctets (g : ℕ × ℕ × ℕ × ℕ) : ℤ :=
  ushr (shl g.1 24) 0 + shl g.2.1 16 + shl g.2.2.1 8 + g.2.2.2

def ipToInt (ip : List Char) : Option ℤ :=
  (groups ip).bind fun g => if tooLarge g then none else some (joinOctets g)

/-- A number as a text. -/
def printed (n : ℤ) : List Char :=
  if n < 0 then '-' :: Nat.toDigits 10 n.natAbs else Nat.toDigits 10 n.natAbs

def intToIp (n : ℤ) : List Char :=
  ['.'].intercalate
    ([band (ushr n 24) 255, band (ushr n 16) 255, band (ushr n 8) 255, band n 255].map printed)

/-- `p === 0 ? 0 : (0xffffffff << (32 - p)) >>> 0` -/
def prefixMask (p : ℕ) : ℤ := if p = 0 then 0 else ushr (shl 0xffffffff (32 - p)) 0

def network (ipInt : ℤ) (p : ℕ) : ℤ := ushr (band ipInt (prefixMask p)) 0

def canonicalCidr (value : String) : Option String :=
  let s := trim value.toList
  if s = [] then none
  else
    match s.splitOn '/' with
    | [addr] =>
      (ipToInt addr).map fun ipInt =>
        String.ofList (intToIp (network ipInt 32) ++ '/' :: Nat.toDigits 10 32)
    | [addr, prefixStr] =>
      match ipToInt addr, number 2 prefixStr with
      | some ipInt, some p =>
        if 32 < p then none
        else some (String.ofList (intToIp (network ipInt p) ++ '/' :: Nat.toDigits 10 p))
      | _, _ => none
    | _ => none

/-- The part of a canonical text before the slash, and the number behind it. -/
def parts (cidr : String) : List Char × ℕ :=
  ((cidr.toList.splitOn '/').headD [], Nat.ofDigitChars 10 ((cidr.toList.splitOn '/').tail.headD [])
    0)

def cidrContains (outer inner : String) : Bool :=
  match canonicalCidr outer, canonicalCidr inner with
  | some o, some i =>
    if (parts i).2 < (parts o).2 then false
    else
      let p := (parts o).2
      network ((ipToInt (parts i).1).getD 0) p = network ((ipToInt (parts o).1).getD 0) p
  | _, _ => false

/-! `site-isolation-rules.js` -/

def cidrOverlaps (x y : String) : Bool := cidrContains x y || cidrContains y x

/-! `wireguard.js` -/

/-- The pattern of six groups, behind `trim`. -/
def canonicalizeIpv4Network (value : String) : Option String :=
  match (trim value.toList).splitOn '/' with
  | [addr, prefixStr] =>
    match groups addr, number 2 prefixStr with
    | some g, some p =>
      if tooLarge g || 32 < p then none
      else
        let net := network (joinOctets g) p
        some (String.ofList (intToIp net ++ '/' :: Nat.toDigits 10 p))
    | _, _ => none
  | _ => none

/-! `agent-direct-link-rules.js` -/

namespace Direct

/-- `ip.split(".").reduce((acc, o) => acc * 256 + Number(o), 0)` -/
def ipToInt (ip : List Char) : ℕ :=
  (ip.splitOn '.').foldl (fun acc o => acc * 256 + Nat.ofDigitChars 10 o 0) 0

/-- `Math.floor(n / 2 ** s) % 256` -/
def intToIp (n : ℕ) : List Char :=
  ['.'].intercalate ([24, 16, 8, 0].map fun s => Nat.toDigits 10 (n / 2 ^ s % 256))

end Direct

def isPrivateIpv4Net (cidr : String) : Bool :=
  ["10.0.0.0/8", "172.16.0.0/12", "192.168.0.0/16"].any fun p => cidrContains p cidr

def canonicalTunnelSubnet (value : String) : Option String :=
  match (trim value.toList).splitOn '/' with
  | [addr, prefixStr] =>
    if prefixStr ≠ "30".toList || (groups addr).all tooLarge then none
    else if Direct.ipToInt addr % 4 ≠ 0 then none
    else
      let cidr := String.ofList (addr ++ "/30".toList)
      if isPrivateIpv4Net cidr then some cidr else none
  | _ => none

def tunnelAddresses (tunnelSubnet : String) : List Char × List Char :=
  let n := Direct.ipToInt ((tunnelSubnet.toList.splitOn '/').headD [])
  (Direct.intToIp (n + 1), Direct.intToIp (n + 2))

/-! What a text stands for. -/

/-- An octet is one to three digits, with zeros in front or without. -/
inductive IsAddress : List Char → ℕ → Prop
  | octets {a b c d : List Char} {i j k l : ℕ} (ha : number 3 a = some i) (hb : number 3 b = some j)
      (hc : number 3 c = some k)
      (hd : number 3 d = some l) (hi : i ≤ 255) (hj : j ≤ 255) (hk : k ≤ 255) (hl : l ≤ 255) :
      IsAddress (['.'].intercalate [a, b, c, d]) (((i * 256 + j) * 256 + k) * 256 + l)

inductive IsNetwork : List Char → ℕ → ℕ → Prop
  | host {addr : List Char} {n : ℕ} (h : IsAddress addr n) : IsNetwork addr n 32
  | net {addr p : List Char} {n len : ℕ} (h : IsAddress addr n) (hp : number 2 p = some len)
      (hlen : len ≤ 32) :
      IsNetwork (addr ++ '/' :: p) n len

/-- The addresses of a text, none if it is no network: those that share its leading bits. -/
def addresses (s : String) : Set ℕ :=
  {x | x < 2 ^ 32 ∧ ∃ n len, IsNetwork (trim s.toList) n len ∧
    x / 2 ^ (32 - len) = n / 2 ^ (32 - len)}

/-- The arithmetic on these texts is that of the sets they stand for. -/
structure Exact (s o i k v : String) : Prop where
  idempotent : ∀ c, canonicalCidr s = some c → canonicalCidr c = some c
  same : ∀ c, canonicalCidr s = some c → addresses c = addresses s
  refused : canonicalCidr s = none ↔ addresses s = ∅
  contains : cidrContains o i = true ↔ (addresses i).Nonempty ∧ addresses i ⊆ addresses o
  refl : canonicalCidr o = some o → cidrContains o o = true
  antisymm : canonicalCidr o = some o → canonicalCidr i = some i → cidrContains o i = true →
    cidrContains i o = true → o = i
  trans : cidrContains o i = true → cidrContains i k = true → cidrContains o k = true
  overlaps : cidrOverlaps o i = true ↔ (addresses o ∩ addresses i).Nonempty
  agrees : '/' ∈ s.toList → canonicalizeIpv4Network s = canonicalCidr s
  /-- the numbers of every address at every prefix -/
  read : ∀ ip n, IsAddress ip n → ipToInt ip = some (n : ℤ)
  shown : ∀ n < 2 ^ 32, IsAddress (intToIp (n : ℕ)) n
  masked : ∀ n < 2 ^ 32, ∀ p ≤ 32, network (n : ℕ) p = (n / 2 ^ (32 - p) * 2 ^ (32 - p) : ℕ)
  tunnel : ∀ t, canonicalTunnelSubnet v = some t → canonicalCidr t = some t
  hosts : ∀ t, canonicalTunnelSubnet v = some t → ∃ n, addresses t = {n, n + 1, n + 2, n + 3} ∧
    IsAddress (tunnelAddresses t).1 (n + 1) ∧ IsAddress (tunnelAddresses t).2 (n + 2)

/-- No octet of a private /30 is written with zeros in front. -/
def Unpadded (v : String) : Prop :=
  ∀ addr n, trim v.toList = addr ++ "/30".toList → IsAddress addr n → n % 4 = 0 →
    isPrivateIpv4Net (String.ofList (trim v.toList)) = true → ∀ o ∈ addr.splitOn '.',
      o = Nat.toDigits 10 (Nat.ofDigitChars 10 o 0)

variable {s t ip addr p : List Char} {g : ℕ × ℕ × ℕ × ℕ} {n len : ℕ} {v w : String} {c : Cidr}
  {x : Ip}

/-! The numbers. -/

theorem joinOctets_eq (h : tooLarge g = false) :
    joinOctets g = (((g.1 * 256 + g.2.1) * 256 + g.2.2.1) * 256 + g.2.2.2 : ℕ) := by
  obtain ⟨a, b, c, d⟩ := g
  simp only [tooLarge, Bool.or_eq_false_iff, decide_eq_false_iff_not, not_lt] at h
  obtain ⟨⟨⟨ha, hb⟩, hc⟩, hd⟩ := h
  have hfirst : ushr (shl a 24) 0 = (a * 16777216 : ℕ) := by
    rw [ushr_zero, word_shl, word, BitVec.ofInt_natCast, BitVec.toNat_shiftLeft, BitVec.toNat_ofNat,
      Nat.shiftLeft_eq]
    simp only [Nat.reduceMod, Nat.reducePow]
    omega
  have hsecond : shl b 16 = b * 65536 :=
    shl_of_lt (k := 16) (by simp only [Nat.reduceMod, Nat.reducePow]; omega)
  have hthird : shl c 8 = c * 256 :=
    shl_of_lt (k := 8) (by simp only [Nat.reduceMod, Nat.reducePow]; omega)
  rw [joinOctets, hfirst, hsecond, hthird]
  push_cast
  omega

theorem word_joinOctets (h : tooLarge g = false) :
    word (joinOctets g) =
      BitVec.ofNat 32 ((g.1 <<< 24) + (g.2.1 <<< 16) + (g.2.2.1 <<< 8) + g.2.2.2) := by
  rw [joinOctets_eq h, word, BitVec.ofInt_natCast]
  simp only [Nat.shiftLeft_eq, Nat.reducePow]
  exact congrArg (BitVec.ofNat 32) (by omega)

theorem word_prefixMask {p : ℕ} (hp : p ≤ 32) : word (prefixMask p) = PrefixBlock.netmask 32 p := by
  unfold prefixMask PrefixBlock.netmask
  split
  · next h =>
    subst h
    decide
  · rw [word_ushr, word_shl, Nat.mod_eq_of_lt (by omega : 32 - p < 32)]
    rfl

/-- The mask is exact at every prefix: the host bits go, the others stay. -/
theorem network_eq {m : ℤ} {p : ℕ} (hp : p ≤ 32) :
    network m p = (word m &&& PrefixBlock.netmask 32 p).toNat := by
  rw [network, ushr_zero, word_band, word_prefixMask hp]

theorem printed_toNat (x : ℕ) : printed x = Nat.toDigits 10 x := by
  rw [printed, if_neg (by omega), Int.natAbs_natCast]

theorem band_255 (n : ℤ) : band n 255 = (word n &&& 255#32).toNat := by
  have hlt : (word n &&& 255#32).toNat < 256 := by
    rw [BitVec.toNat_and]
    exact Nat.and_lt_two_pow _ (by decide : (255#32).toNat < 2 ^ 8)
  have hword : word 255 = 255#32 := by decide
  rw [band, hword, BitVec.toInt_eq_toNat_of_lt (by omega)]

/-- No octet is printed with a sign. -/
theorem intToIp_toNat (x : Ip) : intToIp (x.toNat : ℤ) = FloppyGuard.intToIp x := by
  simp only [intToIp, FloppyGuard.intToIp, octets, band_255, word_ushr, word_toNat, List.map_cons,
    List.map_nil, printed_toNat]
  rfl

/-! The functions agree with those on blocks. -/

theorem ipToInt_groups (ip : List Char) :
    FloppyGuard.ipToInt ip = (groups ip).bind fun g => if tooLarge g then none
    else some (word (joinOctets g)) := by
  unfold FloppyGuard.ipToInt groups
  generalize ip.splitOn '.' = parts
  rcases parts with _ | ⟨a, _ | ⟨b, _ | ⟨c, _ | ⟨d, _ | ⟨_, _⟩⟩⟩⟩⟩
  · rfl
  · rfl
  · rfl
  · rfl
  · dsimp only
    cases number 3 a with
    | none => rfl
    | some i =>
      cases number 3 b with
      | none => rfl
      | some j =>
        cases number 3 c with
        | none => rfl
        | some k =>
          cases number 3 d with
          | none => rfl
          | some l =>
            dsimp only [Option.bind_some]
            by_cases hlarge : tooLarge (i, j, k, l) = true
            · rw [if_pos hlarge, if_pos (by simpa [tooLarge, or_assoc] using hlarge)]
            · rw [if_neg hlarge, if_neg (by simpa [tooLarge, or_assoc] using hlarge),
                word_joinOctets (Bool.eq_false_iff.mpr hlarge)]
  · rfl

theorem joinOctets_word (h : tooLarge g = false) : joinOctets g = (word (joinOctets g)).toNat := by
  rw [joinOctets_eq h, word, BitVec.ofInt_natCast, BitVec.toNat_ofNat]
  simp only [tooLarge, Bool.or_eq_false_iff, decide_eq_false_iff_not, not_lt] at h
  rw [Nat.mod_eq_of_lt (by omega)]

theorem ipToInt_eq (ip : List Char) : ipToInt ip = (FloppyGuard.ipToInt ip).map fun x :
    Ip => (x.toNat : ℤ) := by
  rw [ipToInt_groups, ipToInt]
  cases groups ip with
  | none => rfl
  | some g =>
    rw [Option.bind_some, Option.bind_some]
    cases h : tooLarge g with
    | true => rfl
    | false => exact congrArg some (joinOctets_word h)

/-- The network of an address, as a text. -/
theorem render_around (x : Ip) {p : ℕ} (hp : p ≤ 32) :
    String.ofList (intToIp (network x.toNat p) ++ '/' :: Nat.toDigits 10 p) =
      Cidr.render (.around x p hp) := by
  rw [network_eq hp, word_toNat, intToIp_toNat]
  rfl

theorem canonicalCidr_eq (v : String) :
    canonicalCidr v = (FloppyGuard.canonicalCidr v).map Cidr.render := by
  unfold canonicalCidr FloppyGuard.canonicalCidr
  dsimp only
  split
  · rfl
  generalize (trim v.toList).splitOn '/' = ps
  rcases ps with _ | ⟨addr, _ | ⟨prefixStr, _ | ⟨_, _⟩⟩⟩
  · rfl
  · dsimp only
    rw [ipToInt_eq]
    cases FloppyGuard.ipToInt addr with
    | none => rfl
    | some x => exact congrArg some (render_around x le_rfl)
  · dsimp only
    rw [ipToInt_eq]
    cases FloppyGuard.ipToInt addr with
    | none => rfl
    | some x =>
      cases number 2 prefixStr with
      | none => rfl
      | some p =>
        dsimp only [Option.map_some]
        by_cases hp : p ≤ 32
        · rw [if_neg (not_lt.mpr hp), dif_pos hp, Option.map_some]
          refine congrArg some ((render_around x hp).trans (congrArg Cidr.render ?_))
          exact PrefixBlock.ext (congrArg (x &&& ·) (FloppyGuard.prefixMask_eq p).symm) rfl
        · rw [if_pos (not_le.mp hp), dif_neg hp]
          rfl
  · rfl

theorem parts_render (c : Cidr) : parts c.render = (FloppyGuard.intToIp c.base, c.len) := by
  have hsplit : c.render.toList.splitOn '/' =
      [FloppyGuard.intToIp c.base, Nat.toDigits 10 c.len] := by
    rw [Cidr.render, String.toList_ofList, splitOn_toText]
  rw [parts, hsplit]
  exact congrArg (FloppyGuard.intToIp c.base, ·) Nat.ofDigitChars_ten_toDigits

theorem cidrContains_eq (v w : String) : cidrContains v w = FloppyGuard.cidrContains v w := by
  unfold cidrContains FloppyGuard.cidrContains
  rw [canonicalCidr_eq, canonicalCidr_eq]
  cases FloppyGuard.canonicalCidr v with
  | none => rfl
  | some o =>
    cases FloppyGuard.canonicalCidr w with
    | none => rfl
    | some i =>
      have hread : ∀ x : Ip, (ipToInt (FloppyGuard.intToIp x)).getD 0 = x.toNat := by
        intro x
        rw [ipToInt_eq, ipToInt_intToIp]
        rfl
      have hmask : ∀ x : Ip,
          network x.toNat o.len = (x &&& FloppyGuard.prefixMask o.len).toNat := by
        intro x
        rw [network_eq o.len_le, word_toNat, FloppyGuard.prefixMask_eq]
      simp only [Option.map_some, parts_render, hread, hmask, Nat.cast_inj, BitVec.toNat_inj]
      rfl

theorem cidrContains_iff : cidrContains v w = true ↔
    ∃ o i, FloppyGuard.canonicalCidr v = some o ∧ FloppyGuard.canonicalCidr w = some i ∧
    o.Contains i := by
  rw [cidrContains_eq, FloppyGuard.cidrContains_iff]

/-- On a text with a slash the two canonical forms are one. -/
theorem canonicalizeIpv4Network_eq (h : '/' ∈ v.toList) :
    canonicalizeIpv4Network v = canonicalCidr v := by
  have hslash : '/' ∈ trim v.toList := mem_trim_of_mem h (by decide)
  unfold canonicalizeIpv4Network canonicalCidr
  dsimp only
  rw [if_neg (List.ne_nil_of_mem hslash)]
  split
  · next addr prefixStr hsplit =>
    rw [hsplit]
    dsimp only
    rw [ipToInt]
    cases groups addr with
    | none => rfl
    | some g =>
      cases number 2 prefixStr with
      | none => cases h : tooLarge g <;> simp [h]
      | some p => cases h : tooLarge g <;> simp [h]
  · next hno =>
    split
    · next addr hsplit =>
      have hjoin : ['/'].intercalate ((trim v.toList).splitOn '/') = trim v.toList :=
        List.intercalate_splitOn '/'
      rw [hsplit, List.intercalate_singleton] at hjoin
      have hnot : '/' ∉ addr := not_mem_of_mem_splitOn addr (hsplit ▸ List.mem_singleton_self addr)
      exact absurd (hjoin ▸ hslash) hnot
    · next addr prefixStr hsplit => exact absurd hsplit (hno addr prefixStr)
    · rfl

/-! What they say about addresses. -/

theorem toNat_joinOctets (h : tooLarge g = false) :
    (word (joinOctets g)).toNat = ((g.1 * 256 + g.2.1) * 256 + g.2.2.1) * 256 + g.2.2.2 := by
  exact_mod_cast (joinOctets_word h).symm.trans (joinOctets_eq h)

theorem ipToInt_eq_some {x : Ip} : FloppyGuard.ipToInt ip = some x ↔
    ∃ g, groups ip = some g ∧ tooLarge g = false ∧ x.toNat = ((g.1 * 256 + g.2.1) * 256 + g.2.2.1) *
      256 + g.2.2.2 := by
  rw [ipToInt_groups, Option.bind_eq_some_iff]
  refine exists_congr fun g => and_congr_right fun _ => ?_
  cases h : tooLarge g with
  | true => simp
  | false =>
    rw [← toNat_joinOctets h, BitVec.toNat_inj]
    simp [eq_comm]

theorem number_value {k : ℕ} (h : number k s = some n) : n = Nat.ofDigitChars 10 s 0 := by
  unfold number at h
  split at h
  · exact (Option.some.inj h).symm
  · cases h

/-- The octets of an address text. -/
theorem IsAddress.octets_eq (h : IsAddress addr n) :
    ∃ a b c d i j k l, addr = ['.'].intercalate [a, b, c, d] ∧
    addr.splitOn '.' = [a, b, c, d] ∧ groups addr = some (i, j, k, l) ∧
    tooLarge (i, j, k, l) = false ∧
    n = ((i * 256 + j) * 256 + k) * 256 + l ∧ i = Nat.ofDigitChars 10 a 0 ∧
    j = Nat.ofDigitChars 10 b 0 ∧
    k = Nat.ofDigitChars 10 c 0 ∧ l = Nat.ofDigitChars 10 d 0 := by
  cases h with
  | @octets a b c d i j k l ha hb hc hd hi hj hk hl =>
    have hdots : ∀ o ∈ [a, b, c, d], '.' ∉ o := by
      have hnot : ∀ {o m}, number 3 o = some m → '.' ∉ o :=
        fun hm hc => absurd ((digits_of_number hm).2 '.' hc) (by decide)
      rw [List.forall_mem_cons, List.forall_mem_cons, List.forall_mem_cons,
        List.forall_mem_singleton]
      exact ⟨hnot ha, hnot hb, hnot hc, hnot hd⟩
    have hsplit := List.splitOn_intercalate '.' hdots (List.cons_ne_nil _ _)
    refine ⟨a, b, c, d, i, j, k, l, rfl, hsplit, ?_, ?_, rfl, number_value ha, number_value hb,
      number_value hc, number_value hd⟩
    · rw [groups, hsplit]
      simp only [ha, hb, hc, hd]
    · simp [tooLarge, hi, hj, hk, hl]

theorem isAddress_iff : IsAddress ip n ↔ ∃ x, FloppyGuard.ipToInt ip = some x ∧ x.toNat = n := by
  constructor
  · intro h
    obtain ⟨a, b, c, d, i, j, k, l, -, -, hgroups, hsmall, rfl, -⟩ := h.octets_eq
    exact ⟨word (joinOctets (i, j, k, l)),
      ipToInt_eq_some.mpr ⟨_, hgroups, hsmall, toNat_joinOctets hsmall⟩, toNat_joinOctets hsmall⟩
  · rintro ⟨x, hx, rfl⟩
    obtain ⟨g, hg, hsmall, hvalue⟩ := ipToInt_eq_some.mp hx
    have hjoin : ['.'].intercalate (ip.splitOn '.') = ip := List.intercalate_splitOn '.'
    unfold groups at hg
    split at hg
    · next a b c d hs =>
      split at hg
      · next i j k l ha hb hc hd =>
        obtain rfl := Option.some.inj hg
        simp only [tooLarge, Bool.or_eq_false_iff, decide_eq_false_iff_not, not_lt] at hsmall
        rw [← hjoin, hs, hvalue]
        exact .octets ha hb hc hd hsmall.1.1.1 hsmall.1.1.2 hsmall.1.2 hsmall.2
      · cases hg
    · cases hg

theorem isNetwork_iff : IsNetwork s n len ↔ len ≤ 32 ∧ ∃ x, x.toNat = n ∧
    (FloppyGuard.ipToInt s = some x ∧ len = 32 ∨
      ∃ addr p, s = addr ++ '/' :: p ∧ FloppyGuard.ipToInt addr = some x ∧
      number 2 p = some len) := by
  constructor
  · intro h
    cases h with
    | host h =>
      obtain ⟨x, hx, rfl⟩ := isAddress_iff.mp h
      exact ⟨le_rfl, x, rfl, .inl ⟨hx, rfl⟩⟩
    | net h hp hlen =>
      obtain ⟨x, hx, rfl⟩ := isAddress_iff.mp h
      exact ⟨hlen, x, rfl, .inr ⟨_, _, rfl, hx, hp⟩⟩
  · rintro ⟨hlen, x, rfl, ⟨hx, rfl⟩ | ⟨addr, p, rfl, hx, hp⟩⟩
    · exact .host (isAddress_iff.mpr ⟨x, hx, rfl⟩)
    · exact .net (isAddress_iff.mpr ⟨x, hx, rfl⟩) hp hlen

theorem slash_notMem {x : Ip} (h : FloppyGuard.ipToInt s = some x) : '/' ∉ s := by
  intro hc
  rcases mem_of_ipToInt h hc with hc | hc <;> exact absurd hc (by decide)

/-- The texts that are read, and the block each stands for. -/
theorem canonicalCidr_iff : FloppyGuard.canonicalCidr v = some c ↔
    ∃ n len, IsNetwork (trim v.toList) n len ∧ c.len = len ∧ c.base.toNat = n / 2 ^ (32 - len) * 2 ^
      (32 - len) := by
  have hblock : ∀ (x : Ip) p (hp : p ≤ 32), PrefixBlock.around x p hp = c ↔
      c.len = p ∧ c.base.toNat = x.toNat / 2 ^ (32 - p) * 2 ^ (32 - p) := by
    intro x p hp
    rw [← PrefixBlock.toNat_and_netmask, BitVec.toNat_inj]
    constructor
    · rintro rfl
      exact ⟨rfl, rfl⟩
    · rintro ⟨hlen, hbase⟩
      exact PrefixBlock.ext hbase.symm hlen.symm
  simp only [isNetwork_iff]
  unfold FloppyGuard.canonicalCidr
  dsimp only
  have hjoin : ['/'].intercalate ((trim v.toList).splitOn '/') = trim v.toList :=
    List.intercalate_splitOn '/'
  generalize trim v.toList = s at hjoin ⊢
  constructor
  · intro h
    split at h
    · cases h
    split at h
    · next addr hs =>
      obtain ⟨x, hx, hc⟩ := Option.map_eq_some_iff.mp h
      obtain ⟨hlen, hbase⟩ := (hblock x 32 le_rfl).mp hc
      rw [hs, List.intercalate_singleton] at hjoin
      exact ⟨x.toNat, 32, ⟨le_rfl, x, rfl, .inl ⟨hjoin ▸ hx, rfl⟩⟩, hlen, hbase⟩
    · next addr prefixStr hs =>
      split at h
      · next x p hx hp =>
        split at h
        · next hle =>
          have hc : PrefixBlock.around x p hle = c := by
            rw [← Option.some.inj h]
            exact PrefixBlock.ext (congrArg (x &&& ·) (FloppyGuard.prefixMask_eq p).symm) rfl
          obtain ⟨hlen, hbase⟩ := (hblock x p hle).mp hc
          have htext : s = addr ++ '/' :: prefixStr := by
            rw [← hjoin, hs, List.intercalate_cons_cons, List.intercalate_singleton]
            exact List.append_assoc _ _ _
          exact ⟨x.toNat, p, ⟨hle, x, rfl, .inr ⟨addr, prefixStr, htext, hx, hp⟩⟩, hlen, hbase⟩
        · cases h
      · cases h
    · cases h
  · rintro ⟨n, len, ⟨hle, x, rfl, ⟨hx, rfl⟩ | ⟨addr, p, rfl, hx, hp⟩⟩, hlen, hbase⟩
    · have hne : s ≠ [] := by
        rintro rfl
        cases hx
      rw [if_neg hne, List.splitOn_eq_singleton (slash_notMem hx)]
      dsimp only
      rw [hx]
      exact congrArg some ((hblock x 32 le_rfl).mpr ⟨hlen, hbase⟩)
    · have hp' : '/' ∉ p := fun hc => absurd ((digits_of_number hp).2 '/' hc) (by decide)
      rw [if_neg (by simp), List.splitOn_append_cons_self_of_not_mem (slash_notMem hx),
        List.splitOn_eq_singleton hp']
      dsimp only
      rw [hx, hp]
      dsimp only
      rw [dif_pos hle]
      refine congrArg some (Eq.trans ?_ ((hblock x len hle).mpr ⟨hlen, hbase⟩))
      exact PrefixBlock.ext (congrArg (x &&& ·) (FloppyGuard.prefixMask_eq len)) rfl

/-- The addresses of a text are those of its block. -/
theorem mem_addresses {m : ℕ} :
    m ∈ addresses v ↔ ∃ c, FloppyGuard.canonicalCidr v = some c ∧ ∃ y ∈ c, y.toNat = m := by
  constructor
  · rintro ⟨hm, n, len, hnet, hdiv⟩
    have hle : len ≤ 32 := (isNetwork_iff.mp hnet).1
    obtain ⟨x, hx, -⟩ := (isNetwork_iff.mp hnet).2
    refine ⟨.around x len hle, canonicalCidr_iff.mpr ⟨n, len, hnet, rfl, ?_⟩, BitVec.ofNat 32 m, ?_,
      ?_⟩
    · rw [← hx]
      exact PrefixBlock.toNat_and_netmask x len
    · rw [PrefixBlock.mem_iff, ← BitVec.toNat_inj, PrefixBlock.toNat_and_netmask,
        BitVec.toNat_ofNat, Nat.mod_eq_of_lt hm]
      exact (congrArg (· * 2 ^ (32 - len)) (hx ▸ hdiv)).trans
        (PrefixBlock.toNat_and_netmask x len).symm
    · rw [BitVec.toNat_ofNat, Nat.mod_eq_of_lt hm]
  · rintro ⟨c, hc, y, hy, rfl⟩
    obtain ⟨n, len, hnet, hlen, hbase⟩ := canonicalCidr_iff.mp hc
    refine ⟨y.isLt, n, len, hnet, ?_⟩
    rw [PrefixBlock.mem_iff, ← BitVec.toNat_inj, PrefixBlock.toNat_and_netmask, hlen, hbase] at hy
    exact Nat.eq_of_mul_eq_mul_right (Nat.two_pow_pos _) hy

/-! The subnets of direct links. -/

theorem direct_ipToInt (h : IsAddress addr n) : Direct.ipToInt addr = n := by
  obtain ⟨a, b, c, d, i, j, k, l, -, hsplit, -, -, rfl, rfl, rfl, rfl, rfl⟩ := h.octets_eq
  rw [Direct.ipToInt, hsplit]
  simp only [List.foldl_cons, List.foldl_nil, Nat.zero_mul, Nat.zero_add]

theorem isAddress_of_octets {i j k l : ℕ} (hi : i < 256) (hj : j < 256) (hk : k < 256)
    (hl : l < 256) :
    IsAddress (['.'].intercalate ([i, j, k, l].map (Nat.toDigits 10)))
      (((i * 256 + j) * 256 + k) * 256 + l) :=
  .octets (number_octet hi) (number_octet hj) (number_octet hk) (number_octet hl) (by omega)
    (by omega) (by omega) (by omega)

theorem isAddress_direct (h : n < 2 ^ 32) : IsAddress (Direct.intToIp n) n := by
  have hjoin := isAddress_of_octets (i := n / 2 ^ 24 % 256) (j := n / 2 ^ 16 % 256) (k :=
    n / 2 ^ 8 % 256) (l := n / 2 ^ 0 % 256)
    (by omega) (by omega) (by omega) (by omega)
  have hn : ((n / 2 ^ 24 % 256 * 256 + n / 2 ^ 16 % 256) * 256 + n / 2 ^ 8 % 256) * 256 + n / 2 ^
      0 % 256 = n := by omega
  rwa [hn] at hjoin

/-- The text of an address that pads no octet is the printed one. -/
theorem printed_of_unpadded {x : Ip} (h : IsAddress addr x.toNat) :
    addr = FloppyGuard.intToIp x ↔ ∀ o ∈ addr.splitOn '.',
    o = Nat.toDigits 10 (Nat.ofDigitChars 10 o 0) := by
  obtain ⟨a, b, c, d, i, j, k, l, hjoin, hsplit, -, hsmall, hx, rfl, rfl, rfl, rfl⟩ := h.octets_eq
  simp only [tooLarge, Bool.or_eq_false_iff, decide_eq_false_iff_not, not_lt] at hsmall
  have hoctets : octets x = [Nat.ofDigitChars 10 a 0, Nat.ofDigitChars 10 b 0,
      Nat.ofDigitChars 10 c 0, Nat.ofDigitChars 10 d 0] := by
    have hlow : ∀ y : Ip, (y &&& 255).toNat = y.toNat % 256 := by
      intro y
      rw [BitVec.toNat_and]
      exact Nat.and_two_pow_sub_one_eq_mod y.toNat 8
    simp only [octets, hlow, BitVec.toNat_ushiftRight, Nat.shiftRight_eq_div_pow, hx,
      List.cons.injEq, and_true]
    omega
  have hdots : ∀ m, '.' ∉ Nat.toDigits 10 m := fun m => not_mem_toDigits (by decide)
  rw [FloppyGuard.intToIp, hoctets, hsplit]
  simp only [List.map_cons, List.map_nil, List.forall_mem_cons, List.not_mem_nil, false_imp_iff,
    implies_true, and_true]
  constructor
  · intro he
    have hparts := congrArg (List.splitOn '.') he
    rw [hsplit, List.splitOn_intercalate '.' (by simp [hdots]) (List.cons_ne_nil _ _)] at hparts
    simpa using hparts
  · rintro ⟨ha, hb, hc, hd⟩
    rw [hjoin, ← ha, ← hb, ← hc, ← hd]

/-- What is accepted: an address of a private block of four, as it is written. -/
theorem canonicalTunnelSubnet_iff :
    canonicalTunnelSubnet v = some w ↔ ∃ addr n, trim v.toList = addr ++ "/30".toList ∧
    IsAddress addr n ∧ n % 4 = 0 ∧ isPrivateIpv4Net w = true ∧
    w = String.ofList (trim v.toList) := by
  have hjoin : ['/'].intercalate ((trim v.toList).splitOn '/') = trim v.toList :=
    List.intercalate_splitOn '/'
  have hthirty : "/30".toList = '/' :: "30".toList := by decide
  unfold canonicalTunnelSubnet
  constructor
  · intro h
    split at h
    · next addr prefixStr hs =>
      split at h
      · cases h
      next haccept =>
      split at h
      · cases h
      next hfour =>
      dsimp only at h
      split at h
      · next hprivate =>
        obtain rfl := Option.some.inj h
        rw [Bool.or_eq_true, not_or, decide_eq_true_eq, not_not] at haccept
        obtain ⟨rfl, hgroups⟩ := haccept
        have htext : trim v.toList = addr ++ "/30".toList := by
          rw [← hjoin, hs, List.intercalate_cons_cons, List.intercalate_singleton, hthirty,
            List.append_assoc]
          rfl
        obtain ⟨g, hg, hsmall⟩ : ∃ g, groups addr = some g ∧ tooLarge g = false := by
          cases hg : groups addr with
          | none => simp [hg] at hgroups
          | some g => exact ⟨g, rfl, by simpa [hg] using hgroups⟩
        have haddr : IsAddress addr _ :=
          isAddress_iff.mpr ⟨_, ipToInt_eq_some.mpr ⟨g, hg, hsmall, toNat_joinOctets hsmall⟩, rfl⟩
        refine ⟨addr, _, htext, haddr, ?_, hprivate, by rw [htext]⟩
        rw [← direct_ipToInt haddr]
        omega
      · cases h
    · cases h
  · rintro ⟨addr, n, htext, haddr, hfour, hprivate, rfl⟩
    obtain ⟨x, hx, -⟩ := isAddress_iff.mp haddr
    obtain ⟨a, b, c, d, i, j, k, l, -, -, hgroups, hsmall, -⟩ := haddr.octets_eq
    have hsplit : (trim v.toList).splitOn '/' = [addr, "30".toList] := by
      rw [htext, hthirty, List.splitOn_append_cons_self_of_not_mem (slash_notMem hx),
        List.splitOn_eq_singleton (by decide)]
    rw [hsplit]
    dsimp only
    rw [hgroups, Option.all_some, hsmall, if_neg (by simp), direct_ipToInt haddr,
      if_neg (not_not_intro hfour), ← htext, if_pos hprivate]

/-- The canonical form of such a text. -/
theorem canonicalCidr_thirty {x : Ip} (h : FloppyGuard.ipToInt addr = some x)
    (hfour : x.toNat % 4 = 0) :
    FloppyGuard.canonicalCidr (String.ofList (addr ++ "/30".toList)) =
      some (.around x 30 (by decide)) ∧
      (PrefixBlock.around x 30 (by decide : 30 ≤ 32)).base = x := by
  have hlen : "/30".toList = '/' :: Nat.toDigits 10 30 := by decide
  refine ⟨by rw [hlen]; exact FloppyGuard.canonicalCidr_text h _, ?_⟩
  have hbase := PrefixBlock.toNat_and_netmask x 30
  refine BitVec.eq_of_toNat_eq (hbase.trans ?_)
  omega

theorem fixed_iff {x : Ip} (h : IsAddress addr x.toNat) (hfour : x.toNat % 4 = 0) :
    canonicalCidr (String.ofList (addr ++ "/30".toList)) =
      some (String.ofList (addr ++ "/30".toList)) ↔
      ∀ o ∈ addr.splitOn '.', o = Nat.toDigits 10 (Nat.ofDigitChars 10 o 0) := by
  obtain ⟨y, hy, hxy⟩ := isAddress_iff.mp h
  obtain rfl : y = x := BitVec.eq_of_toNat_eq hxy
  obtain ⟨hcanon, hbase⟩ := canonicalCidr_thirty hy hfour
  have hlen : "/30".toList = '/' :: Nat.toDigits 10 30 := by decide
  rw [canonicalCidr_eq, hcanon, Option.map_some, Option.some_inj, Cidr.render, Cidr.toText, hbase,
    ← printed_of_unpadded h, hlen,
    String.ofList_inj]
  constructor
  · intro he
    exact (List.append_cancel_right he).symm
  · rintro rfl
    rfl

theorem addresses_thirty (h : IsAddress addr n) (hfour : n % 4 = 0) :
    addresses (String.ofList (addr ++ "/30".toList)) = {n, n + 1, n + 2, n + 3} := by
  obtain ⟨x, hx, rfl⟩ := isAddress_iff.mp h
  obtain ⟨hcanon, hbase⟩ := canonicalCidr_thirty hx hfour
  have hlt := x.isLt
  ext m
  rw [mem_addresses]
  constructor
  · rintro ⟨c, hc, y, hy, rfl⟩
    obtain rfl := Option.some.inj (hcanon.symm.trans hc)
    rw [PrefixBlock.mem_iff, hbase, ← BitVec.toNat_inj] at hy
    have hmask := (PrefixBlock.toNat_and_netmask y 30).symm.trans hy
    simp only [Set.mem_insert_iff, Set.mem_singleton_iff]
    omega
  · intro hm
    simp only [Set.mem_insert_iff, Set.mem_singleton_iff] at hm
    have hm32 : m < 2 ^ 32 := by omega
    refine ⟨_, hcanon, BitVec.ofNat 32 m, ?_, ?_⟩
    · rw [PrefixBlock.mem_iff, hbase, ← BitVec.toNat_inj]
      refine (PrefixBlock.toNat_and_netmask _ 30).trans ?_
      rw [BitVec.toNat_ofNat, Nat.mod_eq_of_lt hm32]
      omega
    · rw [BitVec.toNat_ofNat, Nat.mod_eq_of_lt hm32]

/-! All of it together. -/

theorem addresses_nonempty :
    (addresses v).Nonempty ↔ ∃ c, FloppyGuard.canonicalCidr v = some c := by
  constructor
  · rintro ⟨m, hm⟩
    obtain ⟨c, hc, -⟩ := mem_addresses.mp hm
    exact ⟨c, hc⟩
  · rintro ⟨c, hc⟩
    exact ⟨_, mem_addresses.mpr ⟨c, hc, c.base, c.base_mem, rfl⟩⟩

theorem mem_addresses_toNat {x : Ip} (hc : FloppyGuard.canonicalCidr v = some c) :
    x.toNat ∈ addresses v ↔ x ∈ c := by
  rw [mem_addresses]
  constructor
  · rintro ⟨c', hc', y, hy, hyx⟩
    obtain rfl := Option.some.inj (hc.symm.trans hc')
    exact BitVec.eq_of_toNat_eq hyx ▸ hy
  · intro hx
    exact ⟨c, hc, x, hx, rfl⟩

theorem addresses_subset {o i : Cidr} (ho : FloppyGuard.canonicalCidr v = some o)
    (hi : FloppyGuard.canonicalCidr w = some i) :
    addresses w ⊆ addresses v ↔ o.Contains i := by
  rw [PrefixBlock.contains_iff_subset]
  constructor
  · intro h x hx
    exact (mem_addresses_toNat ho).mp (h ((mem_addresses_toNat hi).mpr hx))
  · intro h m hm
    obtain ⟨c, hc, x, hx, rfl⟩ := mem_addresses.mp hm
    obtain rfl := Option.some.inj (hi.symm.trans hc)
    exact (mem_addresses_toNat ho).mpr (h x hx)

theorem cidrContains_iff_subset :
    cidrContains v w = true ↔ (addresses w).Nonempty ∧ addresses w ⊆ addresses v := by
  rw [cidrContains_iff, addresses_nonempty]
  constructor
  · rintro ⟨o, i, ho, hi, hoi⟩
    exact ⟨⟨i, hi⟩, (addresses_subset ho hi).mpr hoi⟩
  · rintro ⟨⟨i, hi⟩, hsub⟩
    obtain ⟨o, ho⟩ := addresses_nonempty.mp ((addresses_nonempty.mpr ⟨i, hi⟩).mono hsub)
    exact ⟨o, i, ho, hi, (addresses_subset ho hi).mp hsub⟩

theorem cidrOverlaps_iff : cidrOverlaps v w = true ↔ (addresses v ∩ addresses w).Nonempty := by
  rw [cidrOverlaps, Bool.or_eq_true, cidrContains_iff_subset, cidrContains_iff_subset]
  constructor
  · rintro (⟨⟨m, hm⟩, hsub⟩ | ⟨⟨m, hm⟩, hsub⟩)
    · exact ⟨m, hsub hm, hm⟩
    · exact ⟨m, hm, hsub hm⟩
  · rintro ⟨m, hv, hw⟩
    obtain ⟨a, ha, x, hx, hxm⟩ := mem_addresses.mp hv
    obtain ⟨b, hb, y, hy, hym⟩ := mem_addresses.mp hw
    obtain rfl : x = y := BitVec.eq_of_toNat_eq (hxm.trans hym.symm)
    rcases PrefixBlock.overlaps_of_mem hx hy with hab | hba
    · exact .inl ⟨⟨m, hw⟩, (addresses_subset ha hb).mpr hab⟩
    · exact .inr ⟨⟨m, hv⟩, (addresses_subset hb ha).mpr hba⟩

theorem canonicalCidr_some (h : canonicalCidr v = some w) :
    ∃ c, FloppyGuard.canonicalCidr v = some c ∧ w = c.render := by
  rw [canonicalCidr_eq] at h
  obtain ⟨c, hc, rfl⟩ := Option.map_eq_some_iff.mp h
  exact ⟨c, hc, rfl⟩

theorem canonicalCidr_render' (c : Cidr) : canonicalCidr c.render = some c.render := by
  rw [canonicalCidr_eq, canonicalCidr_render]
  rfl

theorem addresses_render (h : FloppyGuard.canonicalCidr v = some c) :
    addresses c.render = addresses v := by
  ext m
  rw [mem_addresses, mem_addresses, canonicalCidr_render, h]

/-- Two texts that contain each other have one canonical form. -/
theorem cidrContains_antisymm (hv : canonicalCidr v = some v) (hw : canonicalCidr w = some w)
    (hvw : cidrContains v w = true)
    (hwv : cidrContains w v = true) : v = w := by
  obtain ⟨o, i, ho, hi, hoi⟩ := cidrContains_iff.mp hvw
  obtain ⟨i', o', hi', ho', hio⟩ := cidrContains_iff.mp hwv
  obtain rfl := Option.some.inj (ho.symm.trans ho')
  obtain rfl := Option.some.inj (hi.symm.trans hi')
  have hsame : o = i := hoi.antisymm hio
  obtain ⟨a, ha, hva⟩ := canonicalCidr_some hv
  obtain ⟨b, hb, hwb⟩ := canonicalCidr_some hw
  rw [hva, hwb, ← Option.some.inj (ho.symm.trans ha), ← Option.some.inj (hi.symm.trans hb), hsame]

theorem isAddress_intToIp (h : n < 2 ^ 32) : IsAddress (intToIp (n : ℕ)) n := by
  have hword : (BitVec.ofNat 32 n).toNat = n := by rw [BitVec.toNat_ofNat, Nat.mod_eq_of_lt h]
  have hread := isAddress_iff.mpr ⟨_, ipToInt_intToIp (BitVec.ofNat 32 n), hword⟩
  rwa [← intToIp_toNat, hword] at hread

theorem network_nat {p : ℕ} (h : n < 2 ^ 32) (hp : p ≤ 32) :
    network (n : ℕ) p = (n / 2 ^ (32 - p) * 2 ^ (32 - p) : ℕ) := by
  rw [network_eq hp, PrefixBlock.toNat_and_netmask, word, BitVec.ofInt_natCast, BitVec.toNat_ofNat,
    Nat.mod_eq_of_lt h]

theorem hosts_of_tunnel (h : canonicalTunnelSubnet v = some w) :
    ∃ n, addresses w = {n, n + 1, n + 2, n + 3} ∧
    IsAddress (tunnelAddresses w).1 (n + 1) ∧ IsAddress (tunnelAddresses w).2 (n + 2) := by
  obtain ⟨addr, n, htext, haddr, hfour, -, hw⟩ := canonicalTunnelSubnet_iff.mp h
  obtain ⟨x, hx, rfl⟩ := isAddress_iff.mp haddr
  have hlt := x.isLt
  have hthirty : "/30".toList = '/' :: "30".toList := by decide
  have hfront : (w.toList.splitOn '/').headD [] = addr := by
    rw [hw, String.toList_ofList, htext, hthirty,
      List.splitOn_append_cons_self_of_not_mem (slash_notMem hx)]
    rfl
  refine ⟨x.toNat, ?_, ?_, ?_⟩
  · rw [hw, htext]
    exact addresses_thirty haddr hfour
  · rw [tunnelAddresses, hfront, direct_ipToInt haddr]
    exact isAddress_direct (by omega)
  · rw [tunnelAddresses, hfront, direct_ipToInt haddr]
    exact isAddress_direct (by omega)

theorem tunnel_iff : (∀ t, canonicalTunnelSubnet v = some t → canonicalCidr t = some t) ↔
    Unpadded v := by
  constructor
  · intro h addr n htext haddr hfour hprivate
    have hcanon := h _ (canonicalTunnelSubnet_iff.mpr ⟨addr, n, htext, haddr, hfour, hprivate, rfl⟩)
    obtain ⟨x, -, rfl⟩ := isAddress_iff.mp haddr
    rw [htext] at hcanon
    exact (fixed_iff haddr hfour).mp hcanon
  · intro h t ht
    obtain ⟨addr, n, htext, haddr, hfour, hprivate, rfl⟩ := canonicalTunnelSubnet_iff.mp ht
    have hplain := h addr n htext haddr hfour hprivate
    obtain ⟨x, -, rfl⟩ := isAddress_iff.mp haddr
    rw [htext]
    exact (fixed_iff haddr hfour).mpr hplain

/-- The arithmetic is exact for all texts; only a subnet with padded octets passes as canonical. -/
theorem exact_iff (s o i k v : String) : Exact s o i k v ↔ Unpadded v := by
  refine ⟨fun h => tunnel_iff.mp h.tunnel, fun h => ?_⟩
  constructor
  · intro c hc
    obtain ⟨b, -, rfl⟩ := canonicalCidr_some hc
    exact canonicalCidr_render' b
  · intro c hc
    obtain ⟨b, hb, rfl⟩ := canonicalCidr_some hc
    exact addresses_render hb
  · rw [← Set.not_nonempty_iff_eq_empty, addresses_nonempty, canonicalCidr_eq,
      Option.map_eq_none_iff, Option.eq_none_iff_forall_ne_some]
    exact not_exists.symm
  · exact cidrContains_iff_subset
  · intro ho
    obtain ⟨b, hb, -⟩ := canonicalCidr_some ho
    exact cidrContains_iff.mpr ⟨b, b, hb, hb, b.contains_refl⟩
  · exact cidrContains_antisymm
  · intro hoi hik
    obtain ⟨-, hsub⟩ := cidrContains_iff_subset.mp hoi
    obtain ⟨hne, hsub'⟩ := cidrContains_iff_subset.mp hik
    exact cidrContains_iff_subset.mpr ⟨hne, hsub'.trans hsub⟩
  · exact cidrOverlaps_iff
  · exact canonicalizeIpv4Network_eq
  · intro ip n hip
    obtain ⟨x, hx, rfl⟩ := isAddress_iff.mp hip
    rw [ipToInt_eq, hx]
    rfl
  · intro n hn
    exact isAddress_intToIp hn
  · intro n hn p hp
    exact network_nat hn hp
  · exact tunnel_iff.mpr h
  · intro t ht
    exact hosts_of_tunnel ht

/-- `10.010.9.0/30` passes as it is and is not its own canonical form. -/
theorem padded_subnet : ¬ ∀ s o i k v : String, Exact s o i k v := by
  intro hall
  have hfixed := (hall "" "" "" "" "10.010.9.0/30").tunnel "10.010.9.0/30" (by decide +kernel)
  have hcanon : canonicalCidr "10.010.9.0/30" = some "10.10.9.0/30" := by decide +kernel
  exact absurd (hfixed.symm.trans hcanon) (by decide)

end FloppyGuard.CidrNumbers
