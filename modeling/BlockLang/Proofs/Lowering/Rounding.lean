import BlockLang.Frame
import BlockLang.Options
import Mathlib.Algebra.Order.Floor.Div
import Mathlib.Data.Nat.Log
import Mathlib.Order.Bounds.Defs

/-!
# Rounding in 32 bits

The size of a frame is rounded up with a mask. The mask clears bits, so it rounds to multiples of
powers of two and of nothing else; the alignment is one of these because it is itself rounded up
first. Both roundings are the ones of arithmetic without bounds, as long as the number under the
mask is one of 32 bits: the alignment is the least power of two that is large enough, and the
rounded size the least multiple of it (`Options.alignUp?_alignment`).

The number under the mask is the size plus the alignment minus one, taken in this order. For a
single size, 2 ^ 32 minus the alignment, the sum leaves the 32 bits although the number does not.
Where arithmetic wraps around, the sum is then zero and taking one away goes back to the number
(`toNat_add_sub_one`). Where it is checked, there is no result (`alignUp?_eq`).
-/

namespace BlockLang

/-! ### Powers of two -/

theorem ceilPowerOfTwo_eq_two_pow_clog (n : Nat) : ceilPowerOfTwo n = 2 ^ Nat.clog 2 n := by
  rw [ceilPowerOfTwo]
  split
  · rename_i h
    rw [Nat.clog_of_right_le_one h, Nat.pow_zero]
  · rename_i h
    have hlog : (n - 1).log2 + 1 = Nat.clog 2 n := by
      refine Nat.le_antisymm ?_ ?_
      · rw [Nat.succ_le_iff, Nat.log2_lt (by omega)]
        have := Nat.le_pow_clog Nat.one_lt_two n
        omega
      · refine Nat.clog_le_of_le_pow ?_
        have := (Nat.log2_lt (n := n - 1) (by omega)).1 (Nat.lt_succ_self _)
        omega
    rw [Nat.one_shiftLeft, hlog]

/-- Rounding up to a power of two gives the least one that is large enough. -/
theorem isLeast_ceilPowerOfTwo (n : Nat) :
    IsLeast {p | p.isPowerOfTwo ∧ max 1 n ≤ p} (ceilPowerOfTwo n) := by
  rw [ceilPowerOfTwo_eq_two_pow_clog]
  refine ⟨⟨⟨_, rfl⟩, max_le (Nat.two_pow_pos _) (Nat.le_pow_clog Nat.one_lt_two n)⟩, ?_⟩
  rintro _ ⟨⟨k, rfl⟩, hk⟩
  exact Nat.pow_le_pow_right Nat.two_pos (Nat.clog_le_of_le_pow (le_of_max_le_right hk))

namespace Options

/-- Up to 2 ^ 31 the alignment is rounded up without overflow. -/
theorem toNat_alignment {o : Options} (h : o.stackAlign.toNat ≤ 2 ^ 31) :
    o.alignment.toNat = ceilPowerOfTwo o.stackAlign.toNat := by
  have hle : ceilPowerOfTwo o.stackAlign.toNat ≤ 2 ^ 31 :=
    (isLeast_ceilPowerOfTwo _).2 ⟨⟨31, rfl⟩, max_le (by decide) h⟩
  rw [alignment, UInt32.toNat_ofNat', Nat.mod_eq_of_lt (by omega)]

theorem isLeast_alignment {o : Options} (h : o.stackAlign.toNat ≤ 2 ^ 31) :
    IsLeast {p | p.isPowerOfTwo ∧ max 1 o.stackAlign.toNat ≤ p} o.alignment.toNat := by
  rw [toNat_alignment h]
  exact isLeast_ceilPowerOfTwo _

end Options

/-! ### Multiples -/

/-- The least multiple that is at least `size`. -/
theorem isLeast_mul_ceilDiv {a : Nat} (ha : 0 < a) (size : Nat) :
    IsLeast {m | a ∣ m ∧ size ≤ m} (a * (size ⌈/⌉ a)) := by
  refine ⟨⟨Nat.dvd_mul_right _ _, (ceilDiv_le_iff_le_mul ha).1 (Nat.le_refl _)⟩, ?_⟩
  rintro _ ⟨⟨k, rfl⟩, hk⟩
  exact Nat.mul_le_mul_left a ((ceilDiv_le_iff_le_mul ha).2 hk)

/-- The number under the mask is the one without bounds. That also holds if only the sum, before one
is taken away, is too large for 32 bits. -/
theorem toNat_add_sub_one {size align : UInt32} (hpos : 0 < align.toNat)
    (h : size.toNat + align.toNat - 1 < 2 ^ 32) :
    (size + align - 1).toNat = size.toNat + align.toNat - 1 := by
  -- the difference of a sum that has become zero is again of 32 bits
  rw [UInt32.toNat_sub, UInt32.toNat_add, UInt32.toNat_one]
  omega

/-- A mask and its complement share out the bits of a number. -/
theorem toNat_and_add_toNat_and_not (x mask : UInt32) :
    (x &&& mask).toNat + (x &&& ~~~mask).toNat = x.toNat := by
  have hdisjoint : (x.toBitVec &&& mask.toBitVec) &&& (x.toBitVec &&& ~~~mask.toBitVec) = 0#32 := by
    ext i
    simp only [BitVec.getElem_and, BitVec.getElem_not, BitVec.getElem_zero]
    cases mask.toBitVec[i] <;> simp
  have hjoin :
      (x.toBitVec &&& mask.toBitVec) ||| (x.toBitVec &&& ~~~mask.toBitVec) = x.toBitVec := by
    ext i
    simp only [BitVec.getElem_or, BitVec.getElem_and, BitVec.getElem_not]
    cases mask.toBitVec[i] <;> simp
  have hsum := BitVec.toNat_add_of_and_eq_zero hdisjoint
  rw [BitVec.add_eq_or_of_and_eq_zero _ _ hdisjoint, hjoin] at hsum
  exact hsum.symm

/-- Clearing the bits below a power of two goes down to a multiple of it. -/
theorem toNat_and_not_sub_one {align : UInt32} (halign : align.toNat.isPowerOfTwo) (x : UInt32) :
    (x &&& ~~~(align - 1)).toNat = align.toNat * (x.toNat / align.toNat) := by
  obtain ⟨k, hk⟩ := halign
  have hmask : (align - 1).toNat = 2 ^ k - 1 := by
    have hpos := Nat.two_pow_pos k
    have hlt := align.toNat_lt
    rw [UInt32.toNat_sub, UInt32.toNat_one]
    omega
  have hlow : (x &&& (align - 1)).toNat = x.toNat % align.toNat := by
    rw [UInt32.toNat_and, hmask, Nat.and_two_pow_sub_one_eq_mod, hk]
  have hbits := toNat_and_add_toNat_and_not x (align - 1)
  have hdiv := Nat.mod_add_div x.toNat align.toNat
  omega

theorem toNat_alignUp {size align : UInt32} (halign : align.toNat.isPowerOfTwo)
    (h : size.toNat + align.toNat - 1 < 2 ^ 32) :
    (alignUp size align).toNat = align.toNat * (size.toNat ⌈/⌉ align.toNat) := by
  have hpos : 0 < align.toNat := Nat.pos_of_isPowerOfTwo halign
  rw [alignUp, toNat_and_not_sub_one halign, toNat_add_sub_one hpos h, Nat.ceilDiv_eq_add_pred_div]

/-- Rounding up to multiples of a power of two gives the least one that is large enough. -/
theorem isLeast_alignUp {size align : UInt32} (halign : align.toNat.isPowerOfTwo)
    (h : size.toNat + align.toNat - 1 < 2 ^ 32) :
    IsLeast {m | align.toNat ∣ m ∧ size.toNat ≤ m} (alignUp size align).toNat := by
  rw [toNat_alignUp halign h]
  exact isLeast_mul_ceilDiv (Nat.pos_of_isPowerOfTwo halign) _

/-- Only nothing is rounded up to nothing. -/
theorem alignUp_eq_zero_iff {size align : UInt32} (halign : align.toNat.isPowerOfTwo)
    (h : size.toNat + align.toNat - 1 < 2 ^ 32) : alignUp size align = 0 ↔ size = 0 := by
  obtain ⟨⟨-, hle⟩, hleast⟩ := isLeast_alignUp halign h
  constructor
  · intro hzero
    rw [hzero] at hle
    exact UInt32.toNat_inj.1 (Nat.le_zero.1 hle)
  · rintro rfl
    exact UInt32.toNat_inj.1 (Nat.le_zero.1 (hleast ⟨Nat.dvd_zero _, Nat.le_refl _⟩))

/-- With checks the result is the same, and there is none if the sum of size and alignment alone
does not fit, although the number under the mask may. -/
theorem alignUp?_eq {size align : UInt32} (hpos : 0 < align.toNat) :
    alignUp? size align =
      if size.toNat + align.toNat < 2 ^ 32 then some (alignUp size align) else none := by
  have hsize : UInt32.size = 2 ^ 32 := rfl
  rw [alignUp?, checkedAdd, hsize]
  split
  · rename_i hsum
    have hadd : (size + align).toNat = size.toNat + align.toNat := by
      rw [UInt32.toNat_add, Nat.mod_eq_of_lt hsum]
    have hlast : checkedSub (size + align) 1 = some (size + align - 1) :=
      if_pos (by rw [hadd, UInt32.toNat_one]; omega)
    have hlow : checkedSub align 1 = some (align - 1) := if_pos hpos
    rw [Option.bind_eq_bind, Option.bind_some, hlast, Option.bind_some, hlow]
    rfl
  · rfl

/-- The alignment is the least power of two that is at least one and at least what was asked for. If
a size plus the alignment minus one is a number of 32 bits, then the size is rounded up to the least
multiple of the alignment that is at least the size, and this is zero if and only if the size is.
The computation stays within 32 bits if and only if the size plus the alignment does. -/
theorem Options.alignUp?_alignment {o : Options} (ho : o.stackAlign.toNat ≤ 2 ^ 31) :
    IsLeast {p | p.isPowerOfTwo ∧ max 1 o.stackAlign.toNat ≤ p} o.alignment.toNat ∧
      ∀ size : UInt32, size.toNat + o.alignment.toNat - 1 < 2 ^ 32 →
        IsLeast {m | o.alignment.toNat ∣ m ∧ size.toNat ≤ m} (alignUp size o.alignment).toNat ∧
          (alignUp size o.alignment = 0 ↔ size = 0) ∧
          alignUp? size o.alignment =
            if size.toNat + o.alignment.toNat < 2 ^ 32 then some (alignUp size o.alignment)
            else none := by
  have hleast := isLeast_alignment ho
  have halign : o.alignment.toNat.isPowerOfTwo := hleast.1.1
  refine ⟨hleast, fun size hsize ↦ ⟨?_, ?_, ?_⟩⟩
  · exact isLeast_alignUp halign hsize
  · exact alignUp_eq_zero_iff halign hsize
  · exact alignUp?_eq (Nat.pos_of_isPowerOfTwo halign)

/-- The widest alignment, and the largest size that can be rounded up to it with checks. -/
theorem Options.alignUp?_alignment_widest :
    let o : Options := { stackAlign := 1073741825 }
    let size : UInt32 := 2147483647
    o.stackAlign.toNat ≤ 2 ^ 31 ∧ size.toNat + o.alignment.toNat - 1 < 2 ^ 32 ∧
      IsLeast {p | p.isPowerOfTwo ∧ max 1 (2 ^ 30 + 1) ≤ p} (2 ^ 31) ∧
      alignUp? size o.alignment = some 2147483648 ∧
      IsLeast {m | 2 ^ 31 ∣ m ∧ 2 ^ 31 - 1 ≤ m} (2 ^ 31) := by
  intro o size
  have ho : o.stackAlign.toNat ≤ 2 ^ 31 := by decide
  have hsize : size.toNat + o.alignment.toNat - 1 < 2 ^ 32 := by decide
  have hasked : o.stackAlign.toNat = 2 ^ 30 + 1 := by decide
  have hsizeNat : size.toNat = 2 ^ 31 - 1 := by decide
  have halign : o.alignment.toNat = 2 ^ 31 := by decide
  have hvalue : alignUp size o.alignment = 2147483648 := by decide
  obtain ⟨hpower, hround⟩ := Options.alignUp?_alignment ho
  obtain ⟨hmultiple, -, hchecked⟩ := hround size hsize
  rw [hasked, halign] at hpower
  rw [if_pos (by decide), hvalue] at hchecked
  rw [hvalue, halign, hsizeNat] at hmultiple
  exact ⟨ho, hsize, hpower, hchecked, hmultiple⟩

/-- The next size has the same multiple, and what is under the mask still fits, but the sum before
it does not. -/
theorem Options.alignUp?_alignment_overflow :
    let o : Options := { stackAlign := 1073741825 }
    let size : UInt32 := 2147483648
    o.stackAlign.toNat ≤ 2 ^ 31 ∧ size.toNat + o.alignment.toNat - 1 < 2 ^ 32 ∧
      alignUp? size o.alignment = none := by
  decide

end BlockLang
