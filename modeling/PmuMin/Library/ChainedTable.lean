import Mathlib.Algebra.BigOperators.Group.Finset.Basic
import Mathlib.Data.Fintype.Basic
import Mathlib.Logic.Function.Basic

/-! Chained hash tables as families of stacks. Insertion is at the head of a chain and removal
takes the first match, so the nodes of one key are a stack, whatever keys share its chain. -/
namespace ChainedTable
variable {α β κ : Type*} (hash : κ → β) (key : α → κ)

/-- The nodes that carry `k`, in the order of its chain. -/
def stack [DecidableEq κ] (tbl : β → List α) (k : κ) : List α := (tbl (hash k)).filter (fun a => key a = k)

def push [DecidableEq β] (tbl : β → List α) (a : α) : β → List α :=
  Function.update tbl (hash (key a)) (a :: tbl (hash (key a)))

def pop [DecidableEq β] [DecidableEq κ] (tbl : β → List α) (k : κ) : β → List α :=
  Function.update tbl (hash k) ((tbl (hash k)).eraseP (fun a => key a = k))

/-- Every node lies in the chain of its own key. -/
def WellPlaced (tbl : β → List α) : Prop := ∀ b, ∀ a ∈ tbl b, hash (key a) = b

def weight (w : α → ℕ) : List α → ℕ
  | [] => 0
  | a :: l => w a + weight w l

@[simp] theorem weight_nil (w : α → ℕ) : weight w [] = 0 := rfl
@[simp] theorem weight_cons (w : α → ℕ) (a : α) (l : List α) :
    weight w (a :: l) = w a + weight w l := rfl

theorem weight_one (l : List α) : weight (fun _ => 1) l = l.length := by
  induction l with
  | nil => rfl
  | cons a l ih => rw [weight_cons,ih,List.length_cons,Nat.add_comm]

/-- The weight of the whole table, chain by chain. -/
def total [Fintype β] (w : α → ℕ) (tbl : β → List α) : ℕ := ∑ b, weight w (tbl b)

theorem find?_eq_head?_stack [DecidableEq κ] (tbl : β → List α) (k : κ) :
    (tbl (hash k)).find? (fun a => key a = k) = (stack hash key tbl k).head? :=
  List.head?_filter.symm

theorem stack_push [DecidableEq β] [DecidableEq κ] (tbl : β → List α) (a : α) (k : κ) :
    stack hash key (push hash key tbl a) k =
      if key a = k then a :: stack hash key tbl k else stack hash key tbl k := by
  unfold stack push
  by_cases hk : key a = k
  · subst hk
    simp
  · by_cases hb : hash k = hash (key a)
    · simp [hk,hb]
    · simp [hk,Function.update_of_ne hb]

lemma filter_eraseP_self (p : α → Bool) (l : List α) :
    (l.eraseP p).filter p = (l.filter p).tail := by
  induction l with
  | nil => rfl
  | cons a l ih => by_cases ha : p a <;> simp [ha,ih]

lemma filter_eraseP_of_disjoint {p q : α → Bool} (hpq : ∀ a, p a → ¬ q a) (l : List α) :
    (l.eraseP p).filter q = l.filter q := by
  induction l with
  | nil => rfl
  | cons a l ih =>
    by_cases ha : p a
    · have hq := hpq a ha
      simp [ha,hq]
    · by_cases hq : q a <;> simp [ha,hq,ih]

theorem stack_pop [DecidableEq β] [DecidableEq κ] (tbl : β → List α) (j k : κ) :
    stack hash key (pop hash key tbl j) k =
      if j = k then (stack hash key tbl k).tail else stack hash key tbl k := by
  unfold stack pop
  by_cases hk : j = k
  · subst hk
    simp only [Function.update_self,if_true]
    exact filter_eraseP_self _ _
  · rw [if_neg hk]
    by_cases hb : hash k = hash j
    · rw [hb,Function.update_self]
      apply filter_eraseP_of_disjoint
      intro a ha hq
      simp only [decide_eq_true_eq] at ha hq
      exact hk (ha.symm.trans hq)
    · rw [Function.update_of_ne hb]

theorem WellPlaced.push [DecidableEq β] {tbl : β → List α} (h : WellPlaced hash key tbl) (a : α) :
    WellPlaced hash key (push hash key tbl a) := by
  intro b c hc
  by_cases hb : b = hash (key a)
  · subst hb
    simp only [ChainedTable.push,Function.update_self,List.mem_cons] at hc
    rcases hc with rfl | hc
    · rfl
    · exact h _ c hc
  · rw [ChainedTable.push,Function.update_of_ne hb] at hc
    exact h b c hc

theorem WellPlaced.pop [DecidableEq β] [DecidableEq κ] {tbl : β → List α} (h : WellPlaced hash key tbl) (k : κ) :
    WellPlaced hash key (pop hash key tbl k) := by
  intro b c hc
  by_cases hb : b = hash k
  · subst hb
    simp only [ChainedTable.pop,Function.update_self] at hc
    exact h _ c (List.mem_of_mem_eraseP hc)
  · rw [ChainedTable.pop,Function.update_of_ne hb] at hc
    exact h b c hc

section Total
variable [Fintype β] (w : α → ℕ)

lemma total_update [DecidableEq β] (tbl : β → List α) (b : β) (l : List α) :
    total w (Function.update tbl b l) + weight w (tbl b) = total w tbl + weight w l := by
  have hl := Finset.add_sum_erase Finset.univ (fun c => weight w (Function.update tbl b l c))
    (Finset.mem_univ b)
  have hr := Finset.add_sum_erase Finset.univ (fun c => weight w (tbl c)) (Finset.mem_univ b)
  have he : ∑ c ∈ Finset.univ.erase b, weight w (Function.update tbl b l c) =
      ∑ c ∈ Finset.univ.erase b, weight w (tbl c) :=
    Finset.sum_congr rfl fun c hc => by rw [Function.update_of_ne (Finset.ne_of_mem_erase hc)]
  simp only [Function.update_self] at hl
  unfold total
  omega

theorem total_push [DecidableEq β] (tbl : β → List α) (a : α) :
    total w (push hash key tbl a) = total w tbl + w a := by
  have h := total_update w tbl (hash (key a)) (a :: tbl (hash (key a)))
  rw [weight_cons] at h
  unfold push
  omega

/-- Removal takes the weight of the top of the key's stack away. -/
theorem total_pop [DecidableEq β] [DecidableEq κ] (tbl : β → List α) (k : κ) :
    total w (pop hash key tbl k) + weight w (stack hash key tbl k).head?.toList = total w tbl := by
  have h := total_update w tbl (hash k) ((tbl (hash k)).eraseP (fun a => key a = k))
  have he : ∀ l : List α, weight w (l.eraseP (fun a => key a = k)) +
      weight w (l.filter (fun a => key a = k)).head?.toList = weight w l := by
    intro l
    induction l with
    | nil => rfl
    | cons a l ih =>
      by_cases ha : key a = k
      · simp [ha,Nat.add_comm]
      · rw [List.eraseP_cons_of_neg (by simpa using ha),List.filter_cons_of_neg (by simpa using ha),
          weight_cons,weight_cons]
        omega
  have hk := he (tbl (hash k))
  unfold pop stack
  omega

end Total
end ChainedTable
