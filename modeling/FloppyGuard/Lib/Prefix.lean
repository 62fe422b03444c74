import Mathlib.Data.BitVec
import Mathlib.Data.Set.Basic

/-! Address blocks that share a prefix: masks, membership, nesting. Any width. -/
namespace PrefixBlock

variable {w : ℕ}

/-- The `p` leading bits set, the rest clear. -/
def netmask (w p : ℕ) : BitVec w := BitVec.allOnes w <<< (w - p)

@[simp] theorem getLsbD_netmask (p i : ℕ) :
    (netmask w p).getLsbD i = (decide (i < w) && decide (w - p ≤ i)) := by
  simp only [netmask, BitVec.getLsbD_shiftLeft, BitVec.getLsbD_allOnes]
  by_cases hi : i < w <;> by_cases hp : w - p ≤ i <;> simp [hi, hp]
  omega

@[simp] theorem getElem_netmask (p i : ℕ) (hi : i < w) :
    (netmask w p)[i] = decide (w - p ≤ i) := by
  rw [← BitVec.getLsbD_eq_getElem, getLsbD_netmask]
  simp [hi]

theorem netmask_full : netmask w w = BitVec.allOnes w := by
  simp [netmask]

/-- A longer mask followed by a shorter one is the shorter one. -/
theorem netmask_and_netmask {p q : ℕ} (hpq : p ≤ q) :
    netmask w q &&& netmask w p = netmask w p := by
  apply BitVec.eq_of_getLsbD_eq
  intro i hi
  simp only [BitVec.getLsbD_and, getLsbD_netmask, hi, decide_true, Bool.true_and]
  by_cases hp : w - p ≤ i
  · have hq : w - q ≤ i := by omega
    simp [hp, hq]
  · simp [hp]

theorem and_netmask_netmask {p q : ℕ} (hpq : p ≤ q) (x : BitVec w) :
    (x &&& netmask w q) &&& netmask w p = x &&& netmask w p := by
  rw [BitVec.and_assoc, netmask_and_netmask hpq]

end PrefixBlock

/-- All addresses with the same `len` leading bits as `base`; the host bits of
`base` are clear, so equal blocks are equal values. -/
@[ext] structure PrefixBlock (w : ℕ) where
  base : BitVec w
  len : ℕ
  len_le : len ≤ w
  masked : base &&& PrefixBlock.netmask w len = base
deriving DecidableEq

namespace PrefixBlock

variable {w : ℕ} {a b c : PrefixBlock w} {x y : BitVec w}

/-- The block of length `p` around an address. -/
def around (x : BitVec w) (p : ℕ) (hp : p ≤ w) : PrefixBlock w :=
  ⟨x &&& netmask w p, p, hp, and_netmask_netmask le_rfl x⟩

instance : Membership (BitVec w) (PrefixBlock w) :=
  ⟨fun b x => x &&& netmask w b.len = b.base⟩

theorem mem_iff : x ∈ b ↔ x &&& netmask w b.len = b.base := Iff.rfl

instance : Decidable (x ∈ b) := inferInstanceAs (Decidable (_ = _))

theorem base_mem (b : PrefixBlock w) : b.base ∈ b := b.masked

theorem mem_around (x : BitVec w) {p : ℕ} (hp : p ≤ w) : x ∈ around x p hp := rfl

/-- Nesting as it is computed: not longer, and the inner base under the outer mask. -/
def Contains (o i : PrefixBlock w) : Prop := o.len ≤ i.len ∧ i.base &&& netmask w o.len = o.base

instance : Decidable (a.Contains b) := inferInstanceAs (Decidable (_ ∧ _))

theorem contains_refl (b : PrefixBlock w) : b.Contains b := ⟨le_rfl, b.masked⟩

theorem Contains.trans (hab : a.Contains b) (hbc : b.Contains c) : a.Contains c := by
  refine ⟨hab.1.trans hbc.1, ?_⟩
  rw [← and_netmask_netmask hab.1, hbc.2, hab.2]

theorem Contains.antisymm (hab : a.Contains b) (hba : b.Contains a) : a = b := by
  have hlen : a.len = b.len := le_antisymm hab.1 hba.1
  have hbase : a.base = b.base := by rw [← hab.2, hlen, b.masked]
  ext1 <;> assumption

theorem Contains.mem (h : a.Contains b) (hx : x ∈ b) : x ∈ a := by
  rw [mem_iff] at hx ⊢
  rw [← and_netmask_netmask h.1, hx, h.2]

/-- Two blocks with a common address are nested: the shorter prefix is outside. -/
theorem contains_of_mem (ha : x ∈ a) (hb : x ∈ b) (hlen : a.len ≤ b.len) : a.Contains b := by
  refine ⟨hlen, ?_⟩
  rw [← mem_iff.mp hb, and_netmask_netmask hlen, mem_iff.mp ha]

/-- Blocks overlap when one of them contains the other. -/
def Overlaps (a b : PrefixBlock w) : Prop := a.Contains b ∨ b.Contains a

instance : Decidable (a.Overlaps b) := inferInstanceAs (Decidable (_ ∨ _))

theorem Overlaps.symm (h : a.Overlaps b) : b.Overlaps a := Or.symm h

theorem overlaps_of_mem (ha : x ∈ a) (hb : x ∈ b) : a.Overlaps b := by
  rcases Nat.le_total a.len b.len with h | h
  · exact Or.inl (contains_of_mem ha hb h)
  · exact Or.inr (contains_of_mem hb ha h)

theorem Overlaps.exists_mem (h : a.Overlaps b) : ∃ x, x ∈ a ∧ x ∈ b := by
  rcases h with h | h
  · exact ⟨b.base, h.mem b.base_mem, b.base_mem⟩
  · exact ⟨a.base, a.base_mem, h.mem a.base_mem⟩

theorem overlaps_iff : a.Overlaps b ↔ ∃ x, x ∈ a ∧ x ∈ b :=
  ⟨Overlaps.exists_mem, fun ⟨_, ha, hb⟩ => overlaps_of_mem ha hb⟩

/-- A block of full length holds a single address. -/
theorem mem_host (h : b.len = w) : x ∈ b ↔ x = b.base := by
  rw [mem_iff, h, netmask_full, BitVec.and_allOnes]

theorem contains_of_mem_host (h : b.len = w) (hb : b.base ∈ a) : a.Contains b :=
  ⟨a.len_le.trans_eq h.symm, hb⟩

/-- Against a single address, overlap and containment are the same question. -/
theorem overlaps_host (h : b.len = w) : a.Overlaps b ↔ a.Contains b := by
  refine ⟨fun ho => ?_, Or.inl⟩
  obtain ⟨x, ha, hb⟩ := ho.exists_mem
  exact contains_of_mem_host h (((mem_host h).mp hb) ▸ ha)

theorem flip_getElem {i k : ℕ} (hk : k < w) :
    (x ^^^ BitVec.twoPow w i)[k] = (x[k] ^^ decide (k = i)) := by
  simp [BitVec.getElem_xor, BitVec.getElem_twoPow]

/-- Changing a bit under the mask leaves the block; a bit beside it does not. -/
theorem flip_mem_iff {i : ℕ} (hi : i < w) (hm : x ∈ b) :
    x ^^^ BitVec.twoPow w i ∈ b ↔ ¬ w - b.len ≤ i := by
  rw [mem_iff] at hm ⊢
  constructor
  · intro hy hp
    have hbit := congrArg (fun v => v[i]) (hm.trans hy.symm)
    simp [hp] at hbit
  · intro hp
    rw [← hm]
    apply BitVec.eq_of_getElem_eq
    intro k hk
    simp only [BitVec.getElem_and, flip_getElem, getElem_netmask]
    by_cases he : k = i
    · subst he; simp [hp]
    · simp [he]

/-- The computed nesting is inclusion of the address sets. -/
theorem contains_iff_subset : a.Contains b ↔ ∀ x ∈ b, x ∈ a := by
  refine ⟨fun h x hx => h.mem hx, fun h => ?_⟩
  have hbase := h b.base b.base_mem
  rcases Nat.lt_or_ge b.len a.len with hlt | hge
  · -- a bit below `b`'s mask but inside `a`'s leaves `a` without leaving `b`
    have := a.len_le
    have hi : w - a.len < w := by omega
    have hin := (flip_mem_iff hi b.base_mem).mpr (by omega)
    exact ((flip_mem_iff hi hbase).mp (h _ hin) le_rfl).elim
  · exact contains_of_mem hbase b.base_mem hge

/-- Masking clears the host bits. -/
theorem toNat_and_netmask (x : BitVec w) (p : ℕ) :
    (x &&& netmask w p).toNat = x.toNat / 2 ^ (w - p) * 2 ^ (w - p) := by
  have hshift : x &&& netmask w p = x >>> (w - p) <<< (w - p) := by
    apply BitVec.eq_of_getLsbD_eq
    intro i hi
    simp only [BitVec.getLsbD_and, getLsbD_netmask, BitVec.getLsbD_shiftLeft,
      BitVec.getLsbD_ushiftRight, hi,
      decide_true, Bool.true_and]
    by_cases hp : w - p ≤ i
    · simp [hp, Nat.not_lt.mpr hp, Nat.add_sub_cancel' hp]
    · simp [hp, Nat.not_le.mp hp]
  have hle : x.toNat / 2 ^ (w - p) * 2 ^ (w - p) < 2 ^ w := (Nat.div_mul_le_self ..).trans_lt x.isLt
  rw [hshift, BitVec.toNat_shiftLeft, BitVec.toNat_ushiftRight, Nat.shiftRight_eq_div_pow,
    Nat.shiftLeft_eq,
    Nat.mod_eq_of_lt hle]

/-- The highest address of a block. -/
def last (b : PrefixBlock w) : BitVec w := b.base ||| ~~~netmask w b.len

theorem toNat_last (b : PrefixBlock w) : b.last.toNat = b.base.toNat + (2 ^ (w - b.len) - 1) := by
  have hhost : (~~~netmask w b.len).toNat = 2 ^ (w - b.len) - 1 := by
    have hmask := toNat_and_netmask (BitVec.allOnes w) b.len
    rw [BitVec.allOnes_and, BitVec.toNat_allOnes] at hmask
    rw [BitVec.toNat_not, hmask]
    have hpow : 2 ^ w = 2 ^ b.len * 2 ^ (w - b.len) := by
      rw [← pow_add, Nat.add_sub_cancel' b.len_le]
    have hpos : 0 < 2 ^ (w - b.len) := Nat.two_pow_pos _
    have hlen : 0 < 2 ^ b.len := Nat.two_pow_pos _
    have hdiv : (2 ^ w - 1) / 2 ^ (w - b.len) = 2 ^ b.len - 1 := by
      rw [hpow]
      obtain ⟨m, hm⟩ := Nat.exists_eq_succ_of_ne_zero hlen.ne'
      rw [hm, Nat.succ_mul, Nat.add_sub_assoc hpos, Nat.add_comm, Nat.add_mul_div_right _ _ hpos,
        Nat.div_eq_of_lt (by omega)]
      omega
    rw [hdiv, Nat.sub_mul, one_mul, ← hpow]
    have : 2 ^ (w - b.len) ≤ 2 ^ w := Nat.pow_le_pow_right (by omega) (by omega)
    omega
  have hbase := toNat_and_netmask b.base b.len
  rw [b.masked] at hbase
  rw [last, BitVec.toNat_or, hhost, hbase, ← Nat.shiftLeft_eq,
    Nat.shiftLeft_add_eq_or_of_lt (by have := Nat.two_pow_pos (w - b.len); omega)]

/-- A block is the addresses from its base to its last. -/
theorem mem_iff_between : x ∈ b ↔ b.base ≤ x ∧ x ≤ b.last := by
  have hpos : 0 < 2 ^ (w - b.len) := Nat.two_pow_pos _
  have hbase := toNat_and_netmask b.base b.len
  rw [b.masked] at hbase
  rw [mem_iff, ← BitVec.toNat_inj, toNat_and_netmask, BitVec.le_def, BitVec.le_def, toNat_last]
  constructor
  · intro h
    have hdiv := Nat.div_add_mod' x.toNat (2 ^ (w - b.len))
    have hmod := Nat.mod_lt x.toNat hpos
    omega
  · rintro ⟨hlo, hhi⟩
    generalize b.base.toNat / 2 ^ (w - b.len) = q at hbase
    have hq : x.toNat / 2 ^ (w - b.len) = q := by
      refine Nat.div_eq_of_lt_le (hbase ▸ hlo) ?_
      rw [Nat.succ_mul]
      omega
    rw [hq, hbase]

end PrefixBlock
