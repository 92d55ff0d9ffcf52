import Mathlib.Logic.Function.Basic
import Mathlib.Algebra.BigOperators.Intervals

/-! Mappings whose pages a fault handler supplies, one by one and each on its first touch. -/
namespace Paging
open scoped BigOperators
variable {F σ : Type*}

/-- The pages installed so far and the state of the handler. -/
structure Mapping (F σ : Type*) where
  pte : ℕ → Option F
  handler : σ

/-- The mapping before any access. -/
def fresh (s : σ) : Mapping F σ := ⟨fun _ => none,s⟩

variable (fault : ℕ → σ → Option F × σ)

/-- An access to a page: the handler is called if there is none yet. -/
def touch (m : Mapping F σ) (p : ℕ) : Mapping F σ :=
  match m.pte p with
  | some _ => m
  | none => ⟨Function.update m.pte p (fault p m.handler).1,(fault p m.handler).2⟩

/-- Only the page touched changes, and only if it was not there. -/
theorem pte_touch (m : Mapping F σ) (p : ℕ) :
    (touch fault m p).pte = Function.update m.pte p ((m.pte p).or (fault p m.handler).1) := by
  unfold touch
  cases hpage : m.pte p with
  | none => rfl
  | some page => exact (Function.update_eq_iff.mpr ⟨hpage.symm,fun _ _ => rfl⟩).symm

/-- Every installed page is in its place. -/
def Installed (R : ℕ → F → Prop) (m : Mapping F σ) : Prop :=
  ∀ p page, m.pte p = some page → R p page

variable {R : ℕ → F → Prop} {m : Mapping F σ}

lemma installed_fresh (s : σ) : Installed R (fresh s) := by
  intro p page hpage
  exact absurd hpage (Option.some_ne_none page).symm

section
variable (hfault : ∀ p s, ∀ page, (fault p s).1 = some page → R p page)
include hfault

theorem Installed.touch (h : Installed R m) (p : ℕ) : Installed R (touch fault m p) := by
  intro q page hpage
  rw [pte_touch] at hpage
  rcases eq_or_ne q p with rfl | hq
  · rw [Function.update_self,Option.or_eq_some_iff] at hpage
    exact hpage.elim (h q page) fun hnew => hfault q m.handler page hnew.2
  · rw [Function.update_of_ne hq] at hpage
    exact h q page hpage

theorem Installed.touches (h : Installed R m) (l : List ℕ) :
    Installed R (l.foldl (Paging.touch fault) m) := by
  induction l generalizing m with
  | nil => exact h
  | cons p l ih => exact ih (h.touch fault hfault p)

end

/-- A page is there once it was touched, if the handler supplies one. -/
theorem isSome_touch {p : ℕ} (h : ∀ s, (fault p s).1.isSome) (m : Mapping F σ) :
    ((touch fault m p).pte p).isSome := by
  rw [pte_touch,Function.update_self,Option.isSome_or,h,Bool.or_true]

theorem sum_range_mod {M : Type*} [AddCommMonoid M] (f : ℕ → M) (w pages : ℕ) :
    ∑ i ∈ Finset.range (pages*w), f (i % w) = pages • ∑ j ∈ Finset.range w, f j := by
  induction pages with
  | zero => simp
  | succ pages ih =>
    have hlast : ∑ j ∈ Finset.range w, f ((pages*w+j) % w) = ∑ j ∈ Finset.range w, f j := by
      apply Finset.sum_congr rfl
      intro j hj
      rw [Nat.mul_add_mod_self_right,Nat.mod_eq_of_lt (Finset.mem_range.mp hj)]
    rw [Nat.succ_mul,Finset.sum_range_add,ih,hlast,succ_nsmul]

end Paging
