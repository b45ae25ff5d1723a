import IpRipStack.Library.MachineWord
import Mathlib.Data.Nat.ModEq
import Mathlib.Tactic.Ring

/-!
# End-around carry on sixteen bits

A one's-complement sum of sixteen-bit words is a sum of naturals whose carries out of sixteen bits
are added back at the low end. `foldCarries` is the usual two-step form: the high half is added to
the low half, and the carry of that addition is added once more and the result cut to sixteen bits.

`endAroundSum` adds the words one by one, each carry as it comes; `foldCarries_sum` says that the two
folding steps at the end give the same. The folded value is a sixteen-bit representative of the sum
modulo `65535` (`foldCarries_modEq`), and it is `0` only for the sum `0` (`foldCarries_eq_zero_iff`),
so the double representation of zero is resolved. `eq_of_representatives` is the uniqueness that
follows, and `eq_or_zeros_of_modEq` what two congruent words can be. A sum to which the complement of
its fold is added folds to all ones, never to zero (`complement_foldCarries_add`): a block that
carries its checksum has the checksum zero. Exchanging the bytes of a word is multiplication by `256`
modulo `65535` (`swap16_modEq`), and therefore commutes with the fold (`swap16_foldCarries`): the
one's-complement sum does not depend on the byte order of the host.
-/

set_option autoImplicit false
set_option relaxedAutoImplicit false

namespace IpRipStack.EndAroundCarry

open MachineWord

/-- The two folding steps: high half plus low half, then the carry once more, cut to sixteen
bits. -/
def foldCarries (sum : ℕ) : UInt16 :=
  let sum := sum / 65536 + sum % 65536
  UInt16.ofNat (sum + sum / 65536)

/-- The folded value of a sum below `2 ^ 32`: the carry of the one addition is at most one, so the
second step cannot carry again. -/
theorem toNat_foldCarries {sum : ℕ} (hsum : sum < 4294967296) :
    (foldCarries sum).toNat =
      if sum / 65536 + sum % 65536 < 65536 then sum / 65536 + sum % 65536
      else sum / 65536 + sum % 65536 - 65535 := by
  have hhigh : sum / 65536 < 65536 := by omega
  have hlow : sum % 65536 < 65536 := Nat.mod_lt _ (by omega)
  simp only [foldCarries, UInt16.toNat_ofNat']
  generalize sum / 65536 = high at hhigh ⊢
  generalize sum % 65536 = low at hlow ⊢
  split_ifs with hcarry
  · have hnone : (high + low) / 65536 = 0 := by omega
    omega
  · have hone : (high + low) / 65536 = 1 := by omega
    omega

theorem foldCarries_modEq {sum : ℕ} (hsum : sum < 4294967296) :
    (foldCarries sum).toNat ≡ sum [MOD 65535] := by
  have hdivision : sum = 65536 * (sum / 65536) + sum % 65536 := (Nat.div_add_mod sum 65536).symm
  rw [toNat_foldCarries hsum, Nat.ModEq]
  generalize sum / 65536 = high at hdivision ⊢
  generalize sum % 65536 = low at hdivision ⊢
  split_ifs <;> omega

theorem foldCarries_eq_zero_iff {sum : ℕ} (hsum : sum < 4294967296) :
    (foldCarries sum).toNat = 0 ↔ sum = 0 := by
  rw [toNat_foldCarries hsum]
  split_ifs <;> omega

/-- Two representatives of one residue modulo `65535` are equal once they agree on being zero. -/
theorem eq_of_representatives {first second : UInt16}
    (hmod : first.toNat ≡ second.toNat [MOD 65535])
    (hzero : first.toNat = 0 ↔ second.toNat = 0) : first = second := by
  have hfirst := first.toNat_lt
  have hsecond := second.toNat_lt
  have hresidue : first.toNat % 65535 = second.toNat % 65535 := hmod
  rw [← UInt16.toNat_inj]
  omega

/-- Two words congruent modulo `65535` are equal or the two representations of zero. -/
theorem eq_or_zeros_of_modEq {first second : UInt16}
    (hmod : first.toNat ≡ second.toNat [MOD 65535]) :
    first = second ∨ (first = 0 ∧ second = 65535) ∨ (first = 65535 ∧ second = 0) := by
  have hfirst := first.toNat_lt
  have hsecond := second.toNat_lt
  have hresidue : first.toNat % 65535 = second.toNat % 65535 := hmod
  have hones : (65535 : UInt16).toNat = 65535 := rfl
  simp only [← UInt16.toNat_inj, UInt16.toNat_zero, hones]
  omega

/-- A sum and the complement of its fold together fold to all ones. Assumes: a sum that stays below
`2 ^ 32` with any word added. -/
theorem complement_foldCarries_add {sum : ℕ} (hsum : sum + 65535 < 4294967296) :
    ~~~(foldCarries (sum + (~~~(foldCarries sum)).toNat)) = 0 := by
  have hfold := (foldCarries sum).toNat_lt
  have hcomplement : (~~~(foldCarries sum)).toNat = 65535 - (foldCarries sum).toNat := by
    rw [UInt16.toNat_not]
    rfl
  have hlow : sum < 4294967296 := by omega
  have hzero := foldCarries_eq_zero_iff hlow
  have hmod : (foldCarries sum).toNat % 65535 = sum % 65535 := foldCarries_modEq (by omega)
  rw [hcomplement]
  generalize (foldCarries sum).toNat = folded at *
  have htotal : sum + (65535 - folded) < 4294967296 := by omega
  have hmultiple : (foldCarries (sum + (65535 - folded))).toNat % 65535 =
      (sum + (65535 - folded)) % 65535 := foldCarries_modEq htotal
  have hpositive : (foldCarries (sum + (65535 - folded))).toNat ≠ 0 := by
    -- a sum of zero has the complement `65535`
    rw [Ne, foldCarries_eq_zero_iff htotal]
    omega
  have hlt := (foldCarries (sum + (65535 - folded))).toNat_lt
  have hones : (foldCarries (sum + (65535 - folded))).toNat = 65535 := by omega
  rw [← UInt16.toNat_inj, UInt16.toNat_not, hones]
  rfl

/-! ### The sum word by word -/

/-- One's-complement addition: a carry out of sixteen bits is added back at the low end. -/
def endAroundAdd (x y : UInt16) : UInt16 :=
  if x.toNat + y.toNat < 65536 then x + y else x + y + 1

/-- The one's-complement sum of some words. -/
def endAroundSum (words : List UInt16) : UInt16 := words.foldl endAroundAdd 0

theorem toNat_endAroundAdd (x y : UInt16) : (endAroundAdd x y).toNat =
    if x.toNat + y.toNat < 65536 then x.toNat + y.toNat else x.toNat + y.toNat - 65535 := by
  have hx := x.toNat_lt
  have hy := y.toNat_lt
  unfold endAroundAdd
  split_ifs with hcarry
  · rw [UInt16.toNat_add]
    omega
  · rw [UInt16.toNat_add, UInt16.toNat_add, UInt16.toNat_one]
    omega

/-- Adding words to a sum represents the larger sum modulo `65535`, and is zero only if nothing but
zeros was added. -/
theorem foldl_endAroundAdd (words : List UInt16) (acc : UInt16) :
    (words.foldl endAroundAdd acc).toNat ≡ acc.toNat + (words.map UInt16.toNat).sum [MOD 65535] ∧
      ((words.foldl endAroundAdd acc).toNat = 0 ↔
        acc.toNat + (words.map UInt16.toNat).sum = 0) := by
  induction words generalizing acc with
  | nil => exact ⟨Nat.ModEq.refl _, Iff.rfl⟩
  | cons word words ih =>
    obtain ⟨hmod, hzero⟩ := ih (endAroundAdd acc word)
    have hadd := toNat_endAroundAdd acc word
    have hone : (endAroundAdd acc word).toNat ≡ acc.toNat + word.toNat [MOD 65535] := by
      rw [hadd, Nat.ModEq]
      split_ifs <;> omega
    rw [List.foldl_cons, List.map_cons, List.sum_cons, ← Nat.add_assoc]
    refine ⟨hmod.trans (hone.add_right _), hzero.trans ?_⟩
    rw [hadd]
    split_ifs <;> omega

/-- The two folding steps give the one's-complement sum of the words. Assumes: a sum below `2 ^ 32`.
-/
theorem foldCarries_sum {words : List UInt16} (hsum : (words.map UInt16.toNat).sum < 4294967296) :
    foldCarries (words.map UInt16.toNat).sum = endAroundSum words := by
  obtain ⟨hmod, hzero⟩ := foldl_endAroundAdd words 0
  rw [UInt16.toNat_zero, Nat.zero_add] at hmod hzero
  refine eq_of_representatives ((foldCarries_modEq hsum).trans hmod.symm) ?_
  rw [foldCarries_eq_zero_iff hsum]
  exact hzero.symm

/-! ### The order of the bytes -/

/-- Exchanging the bytes of a word is multiplication by `256` modulo `65535`. -/
theorem swap16_modEq (x : UInt16) : (swap16 x).toNat ≡ 256 * x.toNat [MOD 65535] := by
  have hx := x.toNat_lt
  rw [toNat_swap16]
  have hsplit : 256 * x.toNat = 256 * (x.toNat % 256) + x.toNat / 256 + 65535 * (x.toNat / 256) :=
    by omega
  rw [hsplit]
  exact (Nat.add_mul_mod_self_left _ 65535 _).symm

theorem swap16_eq_zero_iff (x : UInt16) : (swap16 x).toNat = 0 ↔ x.toNat = 0 := by
  rw [toNat_swap16]
  omega

/-- The fold commutes with the exchange of bytes. Assumes: two sums below `2 ^ 32`, the second
congruent to `256` times the first, that are zero together. -/
theorem swap16_foldCarries {first second : ℕ} (hfirst : first < 4294967296)
    (hsecond : second < 4294967296) (hmod : second ≡ 256 * first [MOD 65535])
    (hzero : second = 0 ↔ first = 0) : swap16 (foldCarries first) = foldCarries second := by
  refine eq_of_representatives ?_ ?_
  · calc (swap16 (foldCarries first)).toNat
        ≡ 256 * (foldCarries first).toNat [MOD 65535] := swap16_modEq _
      _ ≡ 256 * first [MOD 65535] := (foldCarries_modEq hfirst).mul_left 256
      _ ≡ second [MOD 65535] := hmod.symm
      _ ≡ (foldCarries second).toNat [MOD 65535] := (foldCarries_modEq hsecond).symm
  · rw [swap16_eq_zero_iff, foldCarries_eq_zero_iff hfirst, foldCarries_eq_zero_iff hsecond, hzero]

/-- The complement commutes with the exchange of bytes. -/
theorem swap16_complement (x : UInt16) : swap16 (~~~x) = ~~~(swap16 x) := by
  have hx := x.toNat_lt
  rw [← UInt16.toNat_inj, toNat_swap16, UInt16.toNat_not, UInt16.toNat_not, toNat_swap16]
  simp only [UInt16.size]
  omega

end IpRipStack.EndAroundCarry
