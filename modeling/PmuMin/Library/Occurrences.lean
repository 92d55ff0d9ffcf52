import Mathlib.Data.Set.Card

/-! How often a value occurs in a family of cells, and what a write to one cell changes. -/
namespace Occurrences
variable {ι α : Type*}

/-- The number of cells that hold `a`. -/
noncomputable def count (f : ι → α) (a : α) : ℕ := Set.ncard {i | f i = a}

/-- One if the two values are the same, otherwise zero. -/
def hit [DecidableEq α] (b a : α) : ℕ := if b = a then 1 else 0

@[simp] theorem hit_self [DecidableEq α] (a : α) : hit a a = 1 := if_pos rfl

theorem hit_of_ne [DecidableEq α] {a b : α} (h : b ≠ a) : hit b a = 0 := if_neg h

/-- Finitely many cells hold something other than `z`. -/
def Supported (z : α) (f : ι → α) : Prop := {i | f i ≠ z}.Finite

theorem Supported.const (z : α) : Supported z (fun _ : ι => z) := by simp [Supported]

theorem Supported.update [DecidableEq ι] {z : α} {f : ι → α} (h : Supported z f) (i : ι) (b : α) :
    Supported z (Function.update f i b) := by
  apply (h.insert i).subset
  intro j hj
  by_cases hji : j = i
  · exact Set.mem_insert_iff.mpr (.inl hji)
  · rw [Set.mem_ofPred_eq,Function.update_of_ne hji] at hj
    exact Set.mem_insert_of_mem i hj

theorem Supported.finite {z a : α} {f : ι → α} (h : Supported z f) (ha : a ≠ z) :
    {i | f i = a}.Finite :=
  h.subset fun _ hi => ne_of_eq_of_ne hi ha

lemma ncard_eq_ncard_diff_add {s : Set ι} (hs : s.Finite) (i : ι) [Decidable (i ∈ s)] :
    s.ncard = (s \ {i}).ncard + if i ∈ s then 1 else 0 := by
  by_cases hi : i ∈ s
  · rw [if_pos hi,Set.ncard_sdiff_singleton_add_one hi hs]
  · rw [if_neg hi,Set.sdiff_singleton_eq_self hi,Nat.add_zero]

/-- A write moves one occurrence from the value it overwrites to the value it stores. -/
theorem count_update [DecidableEq ι] [DecidableEq α] {z a : α} {f : ι → α} (h : Supported z f)
    (ha : a ≠ z) (i : ι) (b : α) :
    count (Function.update f i b) a + hit (f i) a = count f a + hit b a := by
  have hdiff : {j | Function.update f i b j = a} \ {i} = {j | f j = a} \ {i} := by
    ext j
    by_cases hj : j = i <;> simp [hj]
  have hold := ncard_eq_ncard_diff_add (h.finite ha) i
  have hnew := ncard_eq_ncard_diff_add ((h.update i b).finite ha) i
  simp only [Set.mem_ofPred_eq,Function.update_self] at hold hnew
  rw [hdiff] at hnew
  unfold count hit
  omega

theorem count_const {z a : α} (ha : a ≠ z) : count (fun _ : ι => z) a = 0 := by
  simp [count,ha.symm]

end Occurrences
