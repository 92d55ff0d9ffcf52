import Mathlib.Algebra.Ring.Nat
import Mathlib.Tactic.Ring

/-! Countdowns: a machine some of whose operations tick, and that fires and reloads as its
count runs out. -/
variable {σ ι : Type*}

/-- The operations of a run that tick, each in the state that it meets. -/
def ticks (next : σ → ι → σ) (tick : σ → ι → Prop) [∀ s i, Decidable (tick s i)] : σ → List ι → ℕ
  | _,[] => 0
  | s,i :: is => (if tick s i then 1 else 0) + ticks next tick (next s i) is

theorem ticks_append (next : σ → ι → σ) (tick : σ → ι → Prop) [∀ s i, Decidable (tick s i)] (s : σ)
    (is js : List ι) :
    ticks next tick s (is ++ js) = ticks next tick s is + ticks next tick (is.foldl next s) js := by
  induction is generalizing s with
  | nil => simp [ticks]
  | cons i is ih => rw [List.cons_append,ticks,ticks,ih,List.foldl_cons,Nat.add_assoc]

/-- `left` ticks remain in the states of the invariant, `fired` counts how often the machine has
fired, `reload` is what it starts again with. -/
structure Countdown (next : σ → ι → σ) (tick : σ → ι → Prop) (inv : σ → Prop)
    (left fired reload : σ → ℕ) : Prop where
  keeps : ∀ s i, inv s → inv (next s i)
  pos : ∀ s, inv s → 0 < left s
  idle : ∀ s i, inv s → ¬ tick s i → left (next s i) = left s ∧ fired (next s i) = fired s
  count : ∀ s i, inv s → tick s i → 1 < left s →
    left (next s i) = left s - 1 ∧ fired (next s i) = fired s
  fire : ∀ s i, inv s → tick s i → left s = 1 →
    left (next s i) = reload s ∧ fired (next s i) = fired s + 1

namespace Countdown
variable {next : σ → ι → σ} {tick : σ → ι → Prop} [∀ s i, Decidable (tick s i)]
  {inv : σ → Prop} {left fired reload : σ → ℕ}

omit [∀ s i, Decidable (tick s i)] in
theorem foldl (h : Countdown next tick inv left fired reload) {s : σ} (hs : inv s) (is : List ι) :
    inv (is.foldl next s) := by
  induction is generalizing s with
  | nil => exact hs
  | cons i is ih => exact ih (h.keeps s i hs)

omit [∀ s i, Decidable (tick s i)] in
theorem fired_le (h : Countdown next tick inv left fired reload) {s : σ} (hs : inv s)
    (is : List ι) : fired s ≤ fired (is.foldl next s) := by
  induction is generalizing s with
  | nil => exact le_rfl
  | cons i is ih =>
    have hle := ih (h.keeps s i hs)
    have hpos := h.pos s hs
    rw [List.foldl_cons]
    by_cases ht : tick s i
    · by_cases hone : left s = 1
      · have hfired := (h.fire s i hs ht hone).2
        omega
      · have hfired := (h.count s i hs ht (by omega)).2
        omega
    · have hfired := (h.idle s i hs ht).2
      omega

/-- The machine fires with the tick that the count asks for, and with none before it. -/
theorem fired_eq_iff (h : Countdown next tick inv left fired reload) {s : σ} (hs : inv s)
    (is : List ι) : fired (is.foldl next s) = fired s ↔ ticks next tick s is < left s := by
  induction is generalizing s with
  | nil => exact iff_of_true rfl (h.pos s hs)
  | cons i is ih =>
    have hpos := h.pos s hs
    rw [List.foldl_cons,ticks]
    by_cases ht : tick s i
    · rw [if_pos ht]
      by_cases hone : left s = 1
      · have hfired := (h.fire s i hs ht hone).2
        have hle := h.fired_le (h.keeps s i hs) is
        omega
      · obtain ⟨hleft,hfired⟩ := h.count s i hs ht (by omega)
        rw [← hfired,ih (h.keeps s i hs),hleft]
        omega
    · obtain ⟨hleft,hfired⟩ := h.idle s i hs ht
      rw [if_neg ht,← hfired,ih (h.keeps s i hs),hleft,Nat.zero_add]

/-- With one reload value throughout, every tick is either spent on a firing or on the count. -/
theorem mul_fired_add (h : Countdown next tick inv left fired reload) {n : ℕ} {s : σ}
    (hs : inv s) {is : List ι} (hreload : ∀ k, reload ((is.take k).foldl next s) = n)
    (hle : left s ≤ n) : left (is.foldl next s) ≤ n ∧
      n*fired (is.foldl next s) + left s = n*fired s + ticks next tick s is +
        left (is.foldl next s) := by
  induction is generalizing s with
  | nil => exact ⟨hle,rfl⟩
  | cons i is ih =>
    have hpos := h.pos s hs
    replace ih := ih (h.keeps s i hs) fun k => hreload (k+1)
    rw [List.foldl_cons,ticks]
    by_cases ht : tick s i
    · rw [if_pos ht]
      by_cases hone : left s = 1
      · obtain ⟨hleft,hfired⟩ := h.fire s i hs ht hone
        rw [show reload s = n from hreload 0] at hleft
        obtain ⟨hle',hsum⟩ := ih hleft.le
        rw [hfired,hleft,Nat.mul_add] at hsum
        exact ⟨hle',by omega⟩
      · obtain ⟨hleft,hfired⟩ := h.count s i hs ht (by omega)
        obtain ⟨hle',hsum⟩ := ih (by omega)
        rw [hfired] at hsum
        exact ⟨hle',by omega⟩
    · obtain ⟨hleft,hfired⟩ := h.idle s i hs ht
      obtain ⟨hle',hsum⟩ := ih (by omega)
      rw [hfired] at hsum
      exact ⟨hle',by rw [if_neg ht]; omega⟩

theorem fired_eq (h : Countdown next tick inv left fired reload) {n : ℕ} {s : σ} (hs : inv s)
    {is : List ι} (hreload : ∀ k, reload ((is.take k).foldl next s) = n) (hfull : left s = n) :
    fired (is.foldl next s) = fired s + ticks next tick s is / n := by
  obtain ⟨hle,hsum⟩ := h.mul_fired_add hs hreload hfull.le
  have hpos := h.pos _ (h.foldl hs is)
  obtain ⟨d,hd⟩ := Nat.exists_eq_add_of_le (h.fired_le hs is)
  rw [hd,Nat.mul_add,hfull] at hsum
  have hdiv : ticks next tick s is / n = d := by
    apply Nat.div_eq_of_lt_le
    · rw [Nat.mul_comm]
      omega
    · rw [Nat.mul_comm,Nat.mul_add]
      omega
  rw [hd,hdiv]

end Countdown
