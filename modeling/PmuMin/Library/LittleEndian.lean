import Mathlib.Data.BitVec
import Mathlib.Data.List.Basic

/-! Words of `n` bytes in a memory of bytes, the least significant byte first. -/
namespace LittleEndian

/-- The bytes of a sequence of words. -/
def bytes (n : ℕ) (words : ℕ → BitVec (8*n)) : ℕ → BitVec 8 := fun i =>
  (words (i/n)).extractLsb' (8*(i%n)) 8

/-- The word whose first byte is at `d`. -/
def word : (n : ℕ) → (ℕ → BitVec 8) → ℕ → BitVec (8*n)
  | 0,_,_ => 0
  | n+1,m,d => (word n m (d+1) ++ m d : BitVec (8*n + 8))

theorem getLsbD_word (n : ℕ) (m : ℕ → BitVec 8) (d : ℕ) {i : ℕ} (hi : i < 8*n) :
    (word n m d).getLsbD i = (m (d + i/8)).getLsbD (i%8) := by
  induction n generalizing d i with
  | zero => exact absurd hi (Nat.not_lt_zero i)
  | succ n ih =>
    have happend : (word (n+1) m d).getLsbD i =
        if i < 8 then (m d).getLsbD i else (word n m (d+1)).getLsbD (i-8) :=
      BitVec.getLsbD_append
    rw [happend]
    by_cases hfirst : i < 8
    · rw [if_pos hfirst,Nat.div_eq_of_lt hfirst,Nat.mod_eq_of_lt hfirst,Nat.add_zero]
    · have hdiv : d + 1 + (i-8)/8 = d + i/8 := by omega
      have hmod : (i-8)%8 = i%8 := by omega
      rw [if_neg hfirst,ih (d+1) (by omega),hdiv,hmod]

variable {n : ℕ}

theorem word_congr {m m' : ℕ → BitVec 8} {d d' : ℕ} (h : ∀ i < n, m (d + i) = m' (d' + i)) :
    word n m d = word n m' d' := by
  apply BitVec.eq_of_getLsbD_eq
  intro i hi
  rw [getLsbD_word n m d hi,getLsbD_word n m' d' hi,h (i/8) (Nat.div_lt_of_lt_mul hi)]

/-- Words are read back as they were written. -/
theorem word_bytes (words : ℕ → BitVec (8*n)) (k : ℕ) : word n (bytes n words) (n*k) = words k := by
  apply BitVec.eq_of_getLsbD_eq
  intro i hi
  have hbyte : i/8 < n := Nat.div_lt_of_lt_mul hi
  have hpos : 0 < n := Nat.zero_lt_of_lt hbyte
  have hbit : 8*(i/8) + i%8 = i := Nat.div_add_mod i 8
  rw [getLsbD_word n _ _ hi,bytes,BitVec.getLsbD_extractLsb',Nat.mul_add_div hpos,
    Nat.div_eq_of_lt hbyte,Nat.add_zero,Nat.mul_add_mod,Nat.mod_eq_of_lt hbyte,hbit,
    decide_eq_true (Nat.mod_lt i (by decide)),Bool.true_and]

end LittleEndian
