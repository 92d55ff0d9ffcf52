import Mathlib.Tactic.Ring

/-! Saturating reference counters: an unsigned 32-bit word that reads as a signed one, and that
sticks at a saturated value once an increment or a decrement leaves the valid range. -/
namespace Refcount

/-- The value a counter sticks at. -/
def saturated : ℕ := 0xc0000000

def inc (r : ℕ) : ℕ := if r = 0 ∨ 2^31 - 1 ≤ r then saturated else r + 1

def dec (r : ℕ) : ℕ := if r ≤ 1 ∨ 2^31 ≤ r then saturated else r - 1

/-- The increment that refuses a counter at zero, with whether it was made. -/
def incNotZero (r : ℕ) : ℕ × Bool := if r = 0 then (r,false) else (inc r,true)

/-- A counter that started at one and counts `n` holders, unless it is saturated. -/
def Counts (r n : ℕ) : Prop := r = 1 + n ∧ r < 2^31 ∨ r = saturated

theorem counts_one : Counts 1 0 := Or.inl ⟨rfl,by decide⟩

theorem Counts.inc {r n : ℕ} (h : Counts r n) : Counts (inc r) (n + 1) := by
  unfold Counts Refcount.inc saturated at *
  split <;> omega

theorem Counts.dec {r n : ℕ} (h : Counts r (n + 1)) : Counts (dec r) n := by
  unfold Counts Refcount.dec saturated at *
  split <;> omega

/-- A counter that reads at most one has no holder. -/
theorem Counts.eq_zero {r n : ℕ} (h : Counts r n) (hr : r ≤ 1) : n = 0 := by
  unfold Counts saturated at h
  omega

/-- Below the saturation the counter counts on. -/
theorem inc_one_add {n : ℕ} (h : n + 1 < 2^31 - 1) : inc (1 + n) = 1 + (n + 1) := by
  unfold inc
  rw [if_neg (by omega)]
  omega

theorem dec_one_add {n : ℕ} (h : n + 1 < 2^31 - 1) : dec (1 + (n + 1)) = 1 + n := by
  unfold dec
  rw [if_neg (by omega)]
  omega

/-- An increment that a decrement takes back. -/
theorem dec_inc_eq_self_iff {r : ℕ} :
    dec (inc r) = r ↔ 0 < r ∧ r < 2^31 - 1 ∨ r = saturated := by
  unfold dec inc saturated
  split_ifs <;> omega

end Refcount
