import Mathlib.Data.List.Basic
import Mathlib.Data.Nat.ModEq

/-! Buffers written slot by slot. A block of `w` cells goes to the slot of its number; whether the
last blocks survive depends on how soon the slots repeat. -/
namespace SlotBuffer
variable {α : Type*}

/-- The `w` cells from `d` on. -/
def segment (m : ℕ → α) (d w : ℕ) : List α := (List.range w).map fun i => m (d + i)

/-- The first `w` cells of a block, stored from `d` on. -/
def store (m : ℕ → α) (d w : ℕ) (x : ℕ → α) : ℕ → α := fun i =>
  if d ≤ i ∧ i < d + w then x (i - d) else m i

/-- Slots that share no cell. -/
def Apart (w d e : ℕ) : Prop := d + w ≤ e ∨ e + w ≤ d

theorem eq_or_apart_of_mul (w a b : ℕ) : w*a = w*b ∨ Apart w (w*a) (w*b) := by
  unfold Apart
  rw [← Nat.mul_succ,← Nat.mul_succ]
  rcases Nat.lt_trichotomy a b with hlt | heq | hlt
  · exact .inr (.inl (Nat.mul_le_mul_left w hlt))
  · exact .inl (congrArg (w * ·) heq)
  · exact .inr (.inr (Nat.mul_le_mul_left w hlt))

theorem segment_store_self (m : ℕ → α) (d w : ℕ) (x : ℕ → α) :
    segment (store m d w x) d w = segment x 0 w := by
  apply List.map_congr_left
  intro i hi
  have hlt := List.mem_range.mp hi
  simp only [store]
  rw [if_pos ⟨by omega,by omega⟩]
  congr 1
  omega

theorem segment_store_of_apart {w d e : ℕ} (h : Apart w d e) (m x : ℕ → α) :
    segment (store m d w x) e w = segment m e w := by
  apply List.map_congr_left
  intro i hi
  have hlt := List.mem_range.mp hi
  unfold Apart at h
  exact if_neg (by omega)

theorem apply_of_segment_eq {m m' : ℕ → α} {d e w : ℕ} (h : segment m d w = segment m' e w)
    {i : ℕ} (hi : i < w) : m (d + i) = m' (e + i) := by
  have hat := congrArg (fun l => l[i]?) h
  simpa [segment,hi] using hat

/-- The blocks one after the other, the first of them with number `i`. -/
def writes (w : ℕ) (slot : ℕ → ℕ) : ℕ → (ℕ → α) → List (ℕ → α) → ℕ → α
  | _,m,[] => m
  | i,m,x :: xs => writes w slot (i+1) (store m (slot i) w x) xs

section Writes
variable {w : ℕ} {slot : ℕ → ℕ}

theorem segment_writes_of_apart {e i : ℕ} {m : ℕ → α} {xs : List (ℕ → α)}
    (h : ∀ j, j < xs.length → Apart w (slot (i + j)) e) :
    segment (writes w slot i m xs) e w = segment m e w := by
  induction xs generalizing i m with
  | nil => rfl
  | cons x xs ih =>
    rw [writes,ih fun j hj => ?_]
    · exact segment_store_of_apart (h 0 (Nat.zero_lt_succ _)) m x
    · rw [Nat.add_right_comm]
      exact h (j+1) (Nat.succ_lt_succ hj)

variable (slot) in
/-- A block whose slot no later block meets is still there in the end. -/
theorem segment_writes {i : ℕ} {m : ℕ → α} {xs : List (ℕ → α)} {p : ℕ} (hp : p < xs.length)
    (h : ∀ j, p < j → j < xs.length → Apart w (slot (i + j)) (slot (i + p))) :
    segment (writes w slot i m xs) (slot (i + p)) w = segment xs[p] 0 w := by
  induction xs generalizing i m p with
  | nil => exact absurd hp (Nat.not_lt_zero p)
  | cons x xs ih =>
    cases p with
    | zero =>
      rw [writes,segment_writes_of_apart fun j hj => ?_]
      · exact segment_store_self m (slot i) w x
      · rw [Nat.add_right_comm]
        exact h (j+1) (Nat.succ_pos j) (Nat.succ_lt_succ hj)
    | succ p =>
      have hslot : slot (i + (p+1)) = slot (i + 1 + p) := by rw [Nat.add_right_comm]; rfl
      rw [writes,hslot,ih (Nat.lt_of_succ_lt_succ hp) fun j hpj hj => ?_]
      · rfl
      · rw [← hslot,Nat.add_right_comm]
        exact h (j+1) (Nat.succ_lt_succ hpj) (Nat.succ_lt_succ hj)

lemma writes_succ (i : ℕ) (m : ℕ → α) (xs : List (ℕ → α)) :
    writes w slot (i+1) m xs = writes w (fun j => slot (j+1)) i m xs := by
  induction xs generalizing i m with
  | nil => rfl
  | cons x xs ih => exact ih (i+1) _

theorem foldl_take {σ : Type*} {step : σ → (ℕ → α) → σ} {I : ℕ → σ → Prop} (xs : List (ℕ → α))
    {s : σ} (h0 : I 0 s) (hstep : ∀ i < xs.length, ∀ s x, I i s → I (i+1) (step s x)) (i : ℕ)
    (hi : i ≤ xs.length) : I i ((xs.take i).foldl step s) := by
  induction i with
  | zero => exact h0
  | succ i ih =>
    rw [List.take_succ_eq_append_getElem hi,List.foldl_append]
    exact hstep i hi _ _ (ih (Nat.le_of_succ_le hi))

/-- A machine that stores each block at the slot its state points to. -/
theorem foldl_eq_writes {σ : Type*} (step : σ → (ℕ → α) → σ) (buf : σ → ℕ → α) (entry : σ → ℕ)
    (xs : List (ℕ → α)) {s : σ} (I : σ → Prop) (hs : I s) (hI : ∀ s x, I s → I (step s x))
    (h : ∀ s x, I s → buf (step s x) = store (buf s) (entry s) w x) :
    buf (xs.foldl step s) =
      writes w (fun i => entry ((xs.take i).foldl step s)) 0 (buf s) xs := by
  induction xs generalizing s with
  | nil => rfl
  | cons x xs ih =>
    rw [List.foldl_cons,ih (hI s x hs),h s x hs,writes,writes_succ]
    rfl

/-- The same for a machine whose slots are known beforehand, from the block with number `i` on. -/
theorem foldl_eq_writes_of_slot {σ : Type*} {step : σ → (ℕ → α) → σ} {buf : σ → ℕ → α}
    {I : ℕ → σ → Prop} (xs : List (ℕ → α)) {i : ℕ} {s : σ} (hs : I i s)
    (hstep : ∀ j < i + xs.length, ∀ s x, I j s →
      I (j+1) (step s x) ∧ buf (step s x) = store (buf s) (slot j) w x) :
    buf (xs.foldl step s) = writes w slot i (buf s) xs := by
  induction xs generalizing i s with
  | nil => rfl
  | cons x xs ih =>
    obtain ⟨hnext,hbuf⟩ := hstep i (Nat.lt_add_of_pos_right (Nat.zero_lt_succ _)) s x hs
    have hlen : i + (x :: xs).length = i + 1 + xs.length := by
      rw [List.length_cons,Nat.add_assoc,Nat.add_comm 1]
    rw [List.foldl_cons,ih hnext (by rwa [hlen] at hstep),hbuf,writes]

end Writes

section Period
variable {w c : ℕ} {slot : ℕ → ℕ}

/-- Slots that repeat after `c` blocks and not before: blocks that fewer than `c` others separate
share no cell. -/
theorem apart_of_period {n : ℕ}
    (hslot : ∀ i j, i < n → j < n → (slot i = slot j ↔ i % c = j % c))
    (hdvd : ∀ i, i < n → w ∣ slot i) {i j : ℕ} (hij : i < j) (hj : j < n) (hc : j < i + c) :
    Apart w (slot j) (slot i) := by
  have hne : slot j ≠ slot i := by
    intro heq
    have hmod : c ∣ j - i :=
      (Nat.modEq_iff_dvd' hij.le).mp ((hslot i j (hij.trans hj) hj).mp heq.symm)
    have hle := Nat.le_of_dvd (Nat.sub_pos_of_lt hij) hmod
    omega
  obtain ⟨a,ha⟩ := hdvd i (hij.trans hj)
  obtain ⟨b,hb⟩ := hdvd j hj
  rw [ha,hb] at hne ⊢
  exact (eq_or_apart_of_mul w b a).resolve_left hne

theorem segment_writes_of_period {xs : List (ℕ → α)}
    (hslot : ∀ i j, i < xs.length → j < xs.length → (slot i = slot j ↔ i % c = j % c))
    (hdvd : ∀ i, i < xs.length → w ∣ slot i) (m : ℕ → α) {i : ℕ} (hi : i < xs.length)
    (hlast : xs.length ≤ i + c) :
    segment (writes w slot 0 m xs) (slot i) w = segment xs[i] 0 w := by
  have hkeep := segment_writes slot (i := 0) (m := m) (w := w) hi fun j hij hj => by
    rw [Nat.zero_add,Nat.zero_add]
    exact apart_of_period hslot hdvd hij hj (hj.trans_le hlast)
  rwa [Nat.zero_add] at hkeep

end Period

/-- A buffer of `n` slots keeps the last `n` blocks: each is still there, inside the buffer, and
no two blocks that fewer than `n` others follow share a cell. -/
structure Retains (n w : ℕ) (slot : ℕ → ℕ) (xs : List (ℕ → α)) (buf : ℕ → α) : Prop where
  stored : ∀ i, (hi : i < xs.length) → xs.length ≤ i + n →
    segment buf (slot i) w = segment xs[i] 0 w
  inside : ∀ i, i < xs.length → slot i + w ≤ n*w
  apart : ∀ i j, i < j → j < xs.length → j < i + n → Apart w (slot j) (slot i)

/-- Slots that repeat after `c` blocks and not before: the last `n` blocks are kept as long as
nothing repeats, or if `c` slots are enough for all of them. -/
theorem retains_iff {n w c : ℕ} {slot : ℕ → ℕ} (hw : 0 < w) (hc : 0 < c) {xs : List (ℕ → α)}
    (hslot : ∀ i j, i < xs.length → j < xs.length → (slot i = slot j ↔ i % c = j % c))
    (hdvd : ∀ i, i < xs.length → w ∣ slot i) (hinside : ∀ i, i < xs.length → slot i + w ≤ n*w)
    (m : ℕ → α) :
    Retains n w slot xs (writes w slot 0 m xs) ↔ n ≤ c ∨ xs.length ≤ c := by
  constructor
  · intro h
    by_contra hnot
    obtain ⟨hnc,hxc⟩ := not_or.mp hnot
    have hrepeat : slot 0 = slot c :=
      (hslot 0 c (by omega) (by omega)).mpr (by rw [Nat.zero_mod,Nat.mod_self])
    have hap := h.apart 0 c hc (by omega) (by omega)
    unfold Apart at hap
    omega
  · intro h
    exact ⟨fun i hi hlast => segment_writes_of_period hslot hdvd m hi (by omega),hinside,
      fun i j hij hj hn => apart_of_period hslot hdvd hij hj (by omega)⟩

/-- Steps of length `s` around `n` places come back after `n / gcd n s` of them. -/
theorem mul_mod_eq_iff {n s : ℕ} (hn : 0 < n) (i j : ℕ) :
    i*s % n = j*s % n ↔ i % (n / n.gcd s) = j % (n / n.gcd s) := by
  constructor
  · exact fun h => Nat.ModEq.cancel_right_div_gcd hn h
  · intro h
    have hmul : i*s ≡ j*s [MOD n / n.gcd s * s] := Nat.ModEq.mul_right' s h
    apply hmul.of_dvd
    have hdvd := Nat.mul_dvd_mul_left (n / n.gcd s) (Nat.gcd_dvd_right n s)
    rwa [Nat.div_mul_cancel (Nat.gcd_dvd_left n s)] at hdvd

/-- They visit every place exactly if `n` and `s` have no common divisor. -/
theorem le_div_gcd_iff {n s : ℕ} (hn : 0 < n) : n ≤ n / n.gcd s ↔ n.Coprime s := by
  have hg : 0 < n.gcd s := Nat.gcd_pos_of_pos_left s hn
  rw [Nat.le_div_iff_mul_le hg]
  constructor
  · intro h
    have hle : n.gcd s ≤ 1 := by
      by_contra hlt
      have htwo := Nat.mul_le_mul_left n (Nat.succ_le_of_lt (not_le.mp hlt))
      omega
    exact le_antisymm hle hg
  · intro h
    rw [h.gcd_eq_one,Nat.mul_one]

end SlotBuffer
