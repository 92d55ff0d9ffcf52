import Mathlib.Logic.Function.Basic
import Mathlib.Data.Nat.Notation

/-! Families of values under updates at one place. -/
namespace Update
variable {ι β γ : Type*} [DecidableEq ι]

/-- What holds of every value, and of the new one at its place, holds after an update. -/
theorem all {P : ι → β → Prop} {f : ι → β} {i : ι} {b : β} (hi : P i b) (h : ∀ j, P j (f j))
    (j : ι) : P j (Function.update f i b j) :=
  (Function.forall_update_iff f P).mpr ⟨hi,fun j _ => h j⟩ j

/-- Two families related place by place stay so when both are updated at one place. -/
theorem rel {R : ι → β → γ → Prop} {f : ι → β} {g : ι → γ} {i : ι} {b : β} {c : γ}
    (hi : R i b c) (h : ∀ j, R j (f j) (g j)) (j : ι) :
    R j (Function.update f i b j) (Function.update g i c j) := by
  rcases eq_or_ne j i with rfl | hj
  · rwa [Function.update_self,Function.update_self]
  · rw [Function.update_of_ne hj,Function.update_of_ne hj]
    exact h j

/-- Stores, one after the other. -/
def stores (f : ι → β) (l : List (ι × β)) : ι → β :=
  l.foldl (fun f st => Function.update f st.1 st.2) f

theorem stores_of_forall_ne {f : ι → β} {l : List (ι × β)} {i : ι} (h : ∀ st ∈ l, st.1 ≠ i) :
    stores f l i = f i := by
  induction l generalizing f with
  | nil => rfl
  | cons st l ih =>
    obtain ⟨hst,hl⟩ := List.forall_mem_cons.mp h
    exact (ih hl).trans (Function.update_of_ne hst.symm ..)

/-- A place that one value is stored to, as often as it may be. -/
theorem stores_of_agree {f : ι → β} {l : List (ι × β)} {i : ι} {b : β}
    (hb : ∀ st ∈ l, st.1 = i → st.2 = b) (hi : ∃ st ∈ l, st.1 = i) : stores f l i = b := by
  induction l generalizing f with
  | nil =>
    obtain ⟨st,hst,-⟩ := hi
    exact absurd hst List.not_mem_nil
  | cons st l ih =>
    obtain ⟨hst,hl⟩ := List.forall_mem_cons.mp hb
    by_cases hlater : ∃ st' ∈ l, st'.1 = i
    · exact ih hl hlater
    · have hne : ∀ st' ∈ l, st'.1 ≠ i := fun st' hmem heq => hlater ⟨st',hmem,heq⟩
      obtain ⟨st',hmem,rfl⟩ := hi
      obtain rfl : st' = st := (List.mem_cons.mp hmem).resolve_right (hne st' · rfl)
      have hlast := stores_of_forall_ne (f := Function.update f st'.1 st'.2) hne
      exact hlast.trans ((Function.update_self ..).trans (hst rfl))

/-- One more for a place, if there is one. -/
def tally (f : ι → ℕ) : Option ι → ι → ℕ
  | none => f
  | some i => Function.update f i (f i + 1)

theorem tally_apply (f : ι → ℕ) (o : Option ι) (j : ι) :
    tally f o j = f j + if o = some j then 1 else 0 := by
  cases o with
  | none => rfl
  | some i =>
    rcases eq_or_ne j i with rfl | hj
    · rw [tally,Function.update_self,if_pos rfl]
    · rw [tally,Function.update_of_ne hj,if_neg fun heq => hj (Option.some.inj heq).symm]
      rfl

theorem tally_eq_self_iff {f : ι → ℕ} {o : Option ι} : tally f o = f ↔ o = none := by
  cases o with
  | none => exact iff_of_true rfl rfl
  | some i =>
    refine iff_of_false (fun h => ?_) (Option.some_ne_none i)
    have hi := congrFun h i
    rw [tally_apply,if_pos rfl] at hi
    omega

theorem update_tally_sub_one (f : ι → ℕ) (i : ι) :
    Function.update (tally f (some i)) i (tally f (some i) i - 1) = f := by
  rw [tally_apply,if_pos rfl,Nat.add_sub_cancel,tally,Function.update_idem,Function.update_eq_self]

/-- A run of tallies adds to each place as many as it was met. -/
theorem foldl_tally {α : Type*} (found : α → Option ι) (f : ι → ℕ) (l : List α) (j : ι) :
    l.foldl (fun f a => tally f (found a)) f j = f j + l.countP (found · = some j) := by
  induction l generalizing f with
  | nil => rfl
  | cons a l ih =>
    rw [List.foldl_cons,ih,tally_apply,List.countP_cons,Nat.add_assoc,
      Nat.add_comm (List.countP _ _)]
    simp only [decide_eq_true_eq]

end Update
