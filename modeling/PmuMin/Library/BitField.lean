import Mathlib.Data.BitVec
import Mathlib.Tactic.Ring

/-! Bit fields of machine words: hand-written masks read bit by bit. -/
namespace BitField
variable {w : ℕ}

theorem getLsbD_bit (k i : ℕ) : (1#w <<< k).getLsbD i = (decide (i = k) && decide (i < w)) := by
  rw [BitVec.getLsbD_shiftLeft,BitVec.getLsbD_one]
  by_cases hi : i = k
  · subst hi
    by_cases hw : i < w <;> simp [hw]
    omega
  · by_cases hk : i < k
    · simp [hk,hi]
    · have hs : i - k ≠ 0 := by omega
      simp [hi,hs]

/-- The mask of the `k` low bits, written as a shift and a decrement. -/
theorem getLsbD_lowMask {k : ℕ} (hk : k < w) (i : ℕ) :
    ((1#w <<< k) - 1#w).getLsbD i = decide (i < k) := by
  have hpow : 2^k < 2^w := Nat.pow_lt_pow_right (by omega) hk
  have hm : (1#w <<< k) - 1#w = BitVec.ofNat w (2^k - 1) := by
    have hs : 1#w <<< k = BitVec.ofNat w (2^k) := by
      apply BitVec.eq_of_toNat_eq
      rw [BitVec.toNat_shiftLeft,BitVec.toNat_ofNat,BitVec.toNat_ofNat,Nat.shiftLeft_eq,
        Nat.mod_eq_of_lt (a := 1) (Nat.one_lt_two_pow (by omega)),Nat.one_mul]
    rw [hs,BitVec.ofNat_sub_ofNat_of_le _ _ (Nat.one_lt_two_pow (by omega)) Nat.one_le_two_pow]
  rw [hm,BitVec.getLsbD_ofNat,Nat.testBit_two_pow_sub_one]
  by_cases hi : i < k
  · simp [hi,hi.trans hk]
  · simp [hi]

theorem and_bit_ne_zero {k : ℕ} (hk : k < w) (x : BitVec w) :
    x &&& (1#w <<< k) ≠ 0#w ↔ x.getLsbD k = true := by
  constructor
  · intro h
    by_contra hx
    apply h
    apply BitVec.eq_of_getLsbD_eq
    intro i hi
    rw [BitVec.getLsbD_and,getLsbD_bit]
    by_cases hik : i = k
    · subst hik; simp [Bool.not_eq_true _ ▸ hx]
    · simp [hik]
  · intro hx h
    have hb := congrArg (fun y => BitVec.getLsbD y k) h
    rw [BitVec.getLsbD_and,getLsbD_bit,hx] at hb
    simp [hk] at hb

/-- Sign extension of the `k + 1` low bits, written with masks. -/
theorem signExtend_eq_mask {k : ℕ} (hk : k + 1 < w) (x : BitVec w) :
    (if x &&& (1#w <<< k) ≠ 0#w then ~~~((1#w <<< (k + 1)) - 1#w) ||| x
      else ((1#w <<< (k + 1)) - 1#w) &&& x) = (x.setWidth (k + 1)).signExtend w := by
  apply BitVec.eq_of_getLsbD_eq
  intro i hi
  rw [BitVec.getLsbD_signExtend,BitVec.msb_setWidth'',BitVec.getLsbD_setWidth]
  by_cases hx : x.getLsbD k = true
  · rw [if_pos ((and_bit_ne_zero (by omega) x).mpr hx),BitVec.getLsbD_or,BitVec.getLsbD_not,
      getLsbD_lowMask hk]
    by_cases hik : i < k + 1 <;> simp [hi,hik,hx]
  · rw [if_neg (fun h => hx ((and_bit_ne_zero (by omega) x).mp h)),BitVec.getLsbD_and,
      getLsbD_lowMask hk]
    by_cases hik : i < k + 1 <;> simp [hi,hik,hx]

end BitField
