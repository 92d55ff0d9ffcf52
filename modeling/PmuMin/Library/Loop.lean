import Mathlib.Logic.Function.Iterate
import Mathlib.Data.Nat.Find
import Mathlib.Data.Nat.Notation

/-! Loops that need not end, run with a bound on their iterations. -/
namespace Loop
variable {α β σ : Type*}

/-- With enough fuel the program gives the result. -/
def Ends (p : ℕ → Option α) (a : α) : Prop := ∃ fuel, p fuel = some a

/-- More fuel gives the same result. -/
def Steady (p : ℕ → Option α) : Prop := ∀ n m a, n ≤ m → p n = some a → p m = some a

theorem Steady.ends_unique {p : ℕ → Option α} (hp : Steady p) {a b : α} (ha : Ends p a)
    (hb : Ends p b) : a = b := by
  obtain ⟨n,hn⟩ := ha
  obtain ⟨m,hm⟩ := hb
  have hna := hp n (max n m) a (Nat.le_max_left ..) hn
  have hmb := hp m (max n m) b (Nat.le_max_right ..) hm
  exact Option.some.inj (hna.symm.trans hmb)

theorem Steady.ends_iff {p : ℕ → Option α} (hp : Steady p) {a b : α} (ha : Ends p a) :
    Ends p b ↔ a = b := by
  constructor
  · exact hp.ends_unique ha
  · rintro rfl
    exact ha

theorem Steady.bind {p : ℕ → Option α} {q : α → ℕ → Option β} (hp : Steady p)
    (hq : ∀ a, Steady (q a)) : Steady fun n => (p n).bind fun a => q a n := by
  intro n m b hnm hb
  obtain ⟨a,ha,hb⟩ := Option.bind_eq_some_iff.mp hb
  exact Option.bind_eq_some_iff.mpr ⟨a,hp n m a hnm ha,hq a n m b hnm hb⟩

theorem Steady.map {p : ℕ → Option α} (hp : Steady p) (f : α → β) :
    Steady fun n => (p n).map f := by
  intro n m b hnm hb
  obtain ⟨a,ha,rfl⟩ := Option.map_eq_some_iff.mp hb
  exact Option.map_eq_some_iff.mpr ⟨a,hp n m a hnm ha,rfl⟩

theorem exists_ends_some (a : α) : ∃ b, Ends (fun _ => some a) b := ⟨a,0,rfl⟩

/-- One program after the other. -/
theorem ends_bind {p : ℕ → Option α} {q : α → ℕ → Option β} (hp : Steady p)
    (hq : ∀ a, Steady (q a)) {b : β} :
    Ends (fun n => (p n).bind fun a => q a n) b ↔ ∃ a, Ends p a ∧ Ends (q a) b := by
  constructor
  · rintro ⟨n,hn⟩
    obtain ⟨a,ha,hb⟩ := Option.bind_eq_some_iff.mp hn
    exact ⟨a,⟨n,ha⟩,⟨n,hb⟩⟩
  · rintro ⟨a,⟨n,ha⟩,⟨m,hb⟩⟩
    refine ⟨max n m,Option.bind_eq_some_iff.mpr ⟨a,?_,?_⟩⟩
    · exact hp n _ a (Nat.le_max_left ..) ha
    · exact hq a m _ b (Nat.le_max_right ..) hb

theorem ends_map {p : ℕ → Option α} {f : α → β} {b : β} :
    Ends (fun n => (p n).map f) b ↔ ∃ a, Ends p a ∧ f a = b := by
  simp only [Ends,Option.map_eq_some_iff]
  constructor
  · rintro ⟨n,a,ha,hb⟩
    exact ⟨a,⟨n,ha⟩,hb⟩
  · rintro ⟨a,⟨n,ha⟩,hb⟩
    exact ⟨n,a,ha,hb⟩

theorem exists_ends_map {p : ℕ → Option α} {f : α → β} :
    (∃ b, Ends (fun n => (p n).map f) b) ↔ ∃ a, Ends p a := by
  simp only [ends_map]
  constructor
  · rintro ⟨_,a,ha,-⟩
    exact ⟨a,ha⟩
  · rintro ⟨a,ha⟩
    exact ⟨f a,a,ha,rfl⟩

/-- `while (cond) step`. -/
def whileLoop (cond : σ → Bool) (step : σ → σ) : ℕ → σ → Option σ
  | 0, _ => none
  | fuel+1, s => if cond s then whileLoop cond step fuel (step s) else some s

section While
variable {cond : σ → Bool} {step : σ → σ} {s t : σ}

/-- The loop takes as many steps as it takes for the condition to fail. -/
theorem whileLoop_eq_some_iff {fuel : ℕ} :
    whileLoop cond step fuel s = some t ↔
      ∃ k < fuel, (∀ j < k, cond (step^[j] s) = true) ∧ cond (step^[k] s) = false ∧
        step^[k] s = t := by
  induction fuel generalizing s with
  | zero => simp [whileLoop]
  | succ fuel ih =>
    rw [whileLoop]
    cases hs : cond s with
    | false =>
      simp only [Bool.false_eq_true,if_false,Option.some_inj]
      constructor
      · rintro rfl
        exact ⟨0,Nat.succ_pos _,fun j hj => absurd hj (Nat.not_lt_zero j),hs,rfl⟩
      · rintro ⟨k,-,hbefore,-,rfl⟩
        cases k with
        | zero => rfl
        | succ k => exact absurd (hs.symm.trans (hbefore 0 (Nat.succ_pos k))) (by decide)
    | true =>
      simp only [if_true]
      rw [ih]
      constructor
      · rintro ⟨k,hk,hbefore,hend,ht⟩
        refine ⟨k+1,Nat.succ_lt_succ hk,fun j hj => ?_,hend,ht⟩
        cases j with
        | zero => exact hs
        | succ j => exact hbefore j (Nat.lt_of_succ_lt_succ hj)
      · rintro ⟨k,hk,hbefore,hend,ht⟩
        cases k with
        | zero => exact absurd (hs.symm.trans hend) (by decide)
        | succ k =>
          exact ⟨k,Nat.lt_of_succ_lt_succ hk,fun j hj => hbefore (j+1) (Nat.succ_lt_succ hj),hend,ht⟩

theorem steady_whileLoop (cond : σ → Bool) (step : σ → σ) (s : σ) :
    Steady fun fuel => whileLoop cond step fuel s := by
  intro n m t hnm ht
  obtain ⟨k,hk,hrun⟩ := whileLoop_eq_some_iff.mp ht
  exact whileLoop_eq_some_iff.mpr ⟨k,Nat.lt_of_lt_of_le hk hnm,hrun⟩

theorem ends_whileLoop_iff :
    Ends (fun fuel => whileLoop cond step fuel s) t ↔
      ∃ k, (∀ j < k, cond (step^[j] s) = true) ∧ cond (step^[k] s) = false ∧ step^[k] s = t := by
  simp only [Ends,whileLoop_eq_some_iff]
  constructor
  · rintro ⟨_,k,-,hrun⟩
    exact ⟨k,hrun⟩
  · rintro ⟨k,hrun⟩
    exact ⟨k+1,k,Nat.lt_succ_self k,hrun⟩

/-- No step is taken if the condition does not hold. -/
theorem ends_whileLoop_of_false (hs : cond s = false) :
    Ends (fun fuel => whileLoop cond step fuel s) t ↔ s = t := by
  rw [ends_whileLoop_iff]
  constructor
  · rintro ⟨k,hbefore,-,rfl⟩
    cases k with
    | zero => rfl
    | succ k => exact absurd (hs.symm.trans (hbefore 0 (Nat.succ_pos k))) (by decide)
  · rintro rfl
    exact ⟨0,fun j hj => absurd hj (Nat.not_lt_zero j),hs,rfl⟩

/-- The loop ends exactly if the condition fails some time. -/
theorem exists_ends_whileLoop_iff :
    (∃ t, Ends (fun fuel => whileLoop cond step fuel s) t) ↔
      ∃ k, cond (step^[k] s) = false := by
  simp only [ends_whileLoop_iff]
  constructor
  · rintro ⟨_,k,-,hend,-⟩
    exact ⟨k,hend⟩
  · intro h
    refine ⟨_,Nat.find h,fun j hj => ?_,Nat.find_spec h,rfl⟩
    exact eq_true_of_ne_false (Nat.find_min h hj)

/-- What the steps preserve holds at the end, and the condition does not. -/
theorem Ends.whileLoop_inv {I : σ → Prop} (hstep : ∀ s, cond s = true → I s → I (step s))
    (h : I s) (ht : Ends (fun fuel => whileLoop cond step fuel s) t) : I t ∧ cond t = false := by
  obtain ⟨k,hbefore,hend,rfl⟩ := ends_whileLoop_iff.mp ht
  refine ⟨?_,hend⟩
  clear ht hend
  induction k with
  | zero => exact h
  | succ k ih =>
    rw [Function.iterate_succ_apply']
    exact hstep _ (hbefore k (Nat.lt_succ_self k)) (ih fun j hj => hbefore j (Nat.lt_succ_of_lt hj))

end While

/-- A body that is run a number of times. -/
def repeatLoop (body : σ → ℕ → Option σ) : ℕ → σ → ℕ → Option σ
  | 0, s, _ => some s
  | times+1, s, fuel => (body s fuel).bind fun s => repeatLoop body times s fuel

section Repeat
variable {body : σ → ℕ → Option σ} (hbody : ∀ s, Steady (body s))
include hbody

theorem steady_repeatLoop (times : ℕ) (s : σ) : Steady (repeatLoop body times s) := by
  induction times generalizing s with
  | zero => exact fun _ _ _ _ h => h
  | succ times ih => exact (hbody s).bind ih

theorem ends_repeatLoop_succ {times : ℕ} {s t : σ} :
    Ends (repeatLoop body (times+1) s) t ↔
      ∃ u, Ends (body s) u ∧ Ends (repeatLoop body times u) t :=
  ends_bind (hbody s) (steady_repeatLoop hbody times)

/-- What the `k`-th run of the body makes true after it, if it was true before it. -/
theorem Ends.repeatLoop_inv {I : ℕ → σ → Prop} {times : ℕ} {s t : σ} {k : ℕ}
    (hstep : ∀ k s t, I k s → Ends (body s) t → I (k+1) t) (h : I k s)
    (ht : Ends (repeatLoop body times s) t) : I (k+times) t := by
  induction times generalizing k s with
  | zero =>
    obtain ⟨_,ht⟩ := ht
    exact Option.some.inj ht ▸ h
  | succ times ih =>
    obtain ⟨u,hu,ht⟩ := (ends_repeatLoop_succ hbody).mp ht
    rw [Nat.add_succ,← Nat.succ_add]
    exact ih (hstep k s u h hu) ht

/-- All runs end exactly if each of them does. -/
theorem exists_ends_repeatLoop_iff {I : ℕ → σ → Prop} {C : ℕ → Prop} {times : ℕ} {s : σ} {k : ℕ}
    (hstep : ∀ k s t, I k s → Ends (body s) t → I (k+1) t)
    (hends : ∀ k s, I k s → ((∃ t, Ends (body s) t) ↔ C k)) (h : I k s) :
    (∃ t, Ends (repeatLoop body times s) t) ↔ ∀ j < times, C (k+j) := by
  induction times generalizing k s with
  | zero => exact iff_of_true ⟨s,0,rfl⟩ fun j hj => absurd hj (Nat.not_lt_zero j)
  | succ times ih =>
    simp only [ends_repeatLoop_succ hbody,Nat.forall_lt_succ_left,Nat.add_zero]
    rw [← hends k s h]
    constructor
    · rintro ⟨t,u,hu,ht⟩
      refine ⟨⟨u,hu⟩,fun j hj => ?_⟩
      have hrest := (ih (hstep k s u h hu)).mp ⟨t,ht⟩ j hj
      rwa [Nat.succ_add_eq_add_succ] at hrest
    · rintro ⟨⟨u,hu⟩,hrest⟩
      obtain ⟨t,ht⟩ := (ih (hstep k s u h hu)).mpr fun j hj => by
        rw [Nat.succ_add_eq_add_succ]
        exact hrest j hj
      exact ⟨t,u,hu,ht⟩

end Repeat
end Loop
