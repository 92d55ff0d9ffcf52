import Mathlib.Data.List.Basic

/-! Deterministic machines driven by a list of operations. Whatever the environment decides
(an allocation, a chosen address) is part of the operation, so a run is just a list. -/
namespace Machine
variable {σ τ ι ο : Type*}

/-- The outputs of a run, call by call. -/
def outputs (step : σ → ι → σ × ο) : σ → List ι → List ο
  | _,[] => []
  | s,i :: is => (step s i).2 :: outputs step (step s i).1 is

/-- The last state of a run. -/
def final (step : σ → ι → σ × ο) (s : σ) (is : List ι) : σ :=
  is.foldl (fun s i => (step s i).1) s

@[simp] theorem final_nil (step : σ → ι → σ × ο) (s : σ) : final step s [] = s := rfl

@[simp] theorem final_cons (step : σ → ι → σ × ο) (s : σ) (i : ι) (is : List ι) :
    final step s (i :: is) = final step (step s i).1 is := rfl

/-- Every operation of the run is issued in a state that admits it. -/
def Admits (next : σ → ι → σ) (pre : σ → ι → Prop) : σ → List ι → Prop
  | _,[] => True
  | s,i :: is => pre s i ∧ Admits next pre (next s i) is

instance Admits.decidable (next : σ → ι → σ) (pre : σ → ι → Prop) [∀ s i, Decidable (pre s i)] :
    ∀ (s : σ) (is : List ι), Decidable (Admits next pre s is)
  | _,[] => inferInstanceAs (Decidable True)
  | s,i :: is =>
    have := Admits.decidable next pre (next s i) is
    inferInstanceAs (Decidable (pre s i ∧ Admits next pre (next s i) is))

/-- A condition on the steps of a run, read at each place where the run can be cut. -/
theorem admits_iff_forall_cut (next : σ → ι → σ) (pre : σ → ι → Prop) (s : σ) (is : List ι) :
    Admits next pre s is ↔ ∀ as i bs, is = as ++ i :: bs → pre (as.foldl next s) i := by
  induction is generalizing s with
  | nil => simp [Admits]
  | cons j js ih =>
    simp only [Admits,ih]
    constructor
    · rintro ⟨hj,hjs⟩ as i bs h
      cases as with
      | nil => obtain ⟨rfl,-⟩ := List.cons.inj h; exact hj
      | cons a as =>
        obtain ⟨-,htail⟩ := List.cons.inj h
        obtain rfl := (List.cons.inj h).1
        exact hjs as i bs htail
    · intro h
      exact ⟨h [] j js rfl,fun as i bs hjs => h (j :: as) i bs (by rw [hjs]; rfl)⟩

theorem admits_congr {next : σ → ι → σ} {pre pre' : σ → ι → Prop}
    (h : ∀ s i, pre s i ↔ pre' s i) (s : σ) (is : List ι) :
    Admits next pre s is ↔ Admits next pre' s is := by
  induction is generalizing s with
  | nil => exact Iff.rfl
  | cons i is ih => exact and_congr (h s i) (ih (next s i))

/-- What every admitted step preserves holds at the end of an admitted run. -/
theorem Admits.invariant {next : σ → ι → σ} {pre : σ → ι → Prop} {I : σ → Prop}
    (hstep : ∀ s i, I s → pre s i → I (next s i)) {s : σ} {is : List ι}
    (h : Admits next pre s is) (hs : I s) : I (is.foldl next s) := by
  induction is generalizing s with
  | nil => exact hs
  | cons i is ih => exact ih h.2 (hstep s i hs h.1)

/-- What holds of every operation of the run, in any state, is admitted. -/
theorem admits_of_forall {next : σ → ι → σ} {pre : σ → ι → Prop} {s : σ} {is : List ι}
    (h : ∀ i ∈ is, ∀ s, pre s i) : Admits next pre s is := by
  rw [admits_iff_forall_cut]
  rintro as i bs rfl
  exact h i (by simp) _

theorem admits_const_iff {P : ι → Prop} (next : σ → ι → σ) (s : σ) (is : List ι) :
    Admits next (fun _ i => P i) s is ↔ ∀ i ∈ is, P i := by
  induction is generalizing s with
  | nil => simp [Admits]
  | cons i is ih => rw [Admits,ih,List.forall_mem_cons]

theorem admits_and {next : σ → ι → σ} {pre pre' : σ → ι → Prop} {s : σ} {is : List ι} :
    Admits next (fun s i => pre s i ∧ pre' s i) s is ↔
      Admits next pre s is ∧ Admits next pre' s is := by
  induction is generalizing s with
  | nil => simp [Admits]
  | cons i is ih => simp only [Admits,ih,and_and_and_comm]

/-- History variables do not change a run: a condition that reads only the state may be checked
on a machine that carries more. -/
theorem admits_comap {next : σ → ι → σ} {next' : τ → ι → τ} {pre : σ → ι → Prop} (f : τ → σ)
    (hf : ∀ t i, f (next' t i) = next (f t) i) (t : τ) (is : List ι) :
    Admits next' (fun t i => pre (f t) i) t is ↔ Admits next pre (f t) is := by
  induction is generalizing t with
  | nil => exact Iff.rfl
  | cons i is ih => simp only [Admits,ih,hf]

/-- Exactness of a step condition. If in the states of an invariant a well-formed operation meets
`post` exactly when it is issued under `pre`, and such a step keeps the invariant, then the
well-formed runs all of whose steps meet `post` are those all of whose steps are issued under
`pre`. -/
theorem admits_iff_admits {next : σ → ι → σ} {W pre post : σ → ι → Prop} {I : σ → Prop}
    (hpost : ∀ s i, I s → W s i → (post s i ↔ pre s i))
    (hstep : ∀ s i, I s → W s i → pre s i → I (next s i)) {s : σ} {is : List ι}
    (hs : I s) (hW : Admits next W s is) :
    Admits next post s is ↔ Admits next pre s is := by
  induction is generalizing s with
  | nil => exact Iff.rfl
  | cons i is ih =>
    obtain ⟨hi,his⟩ := hW
    constructor
    · rintro ⟨hp,hps⟩
      have hpre := (hpost s i hs hi).mp hp
      exact ⟨hpre,(ih (hstep s i hs hi hpre) his).mp hps⟩
    · rintro ⟨hp,hps⟩
      exact ⟨(hpost s i hs hi).mpr hp,(ih (hstep s i hs hi hp) his).mpr hps⟩

theorem admits_iff_of_invariant {next : σ → ι → σ} {pre post : σ → ι → Prop} {I : σ → Prop}
    (hpost : ∀ s i, I s → (post s i ↔ pre s i)) (hstep : ∀ s i, I s → pre s i → I (next s i))
    {s : σ} (is : List ι) (hs : I s) : Admits next post s is ↔ Admits next pre s is :=
  admits_iff_admits (W := fun _ _ => True) (fun s i hI _ => hpost s i hI)
    (fun s i hI _ => hstep s i hI) hs (admits_of_forall fun _ _ _ => trivial)

/-- Forward simulation of one machine by another on the runs the second one admits: related
states stay related and every call gives the same output. -/
theorem simulation {step : σ → ι → σ × ο} {step' : τ → ι → τ × ο} {pre : τ → ι → Prop}
    {R : σ → τ → Prop}
    (h : ∀ s t i, R s t → pre t i → R (step s i).1 (step' t i).1 ∧ (step s i).2 = (step' t i).2)
    {s : σ} {t : τ} {is : List ι} (hst : R s t)
    (hpre : Admits (fun t i => (step' t i).1) pre t is) :
    R (final step s is) (final step' t is) ∧ outputs step s is = outputs step' t is := by
  induction is generalizing s t with
  | nil => exact ⟨hst,rfl⟩
  | cons i is ih =>
    obtain ⟨hi,his⟩ := hpre
    obtain ⟨hst',hout⟩ := h s t i hst hi
    obtain ⟨hR,houts⟩ := ih hst' his
    exact ⟨hR,by simp only [outputs,hout,houts]⟩

/-- Outputs that pile up: where each admitted call appends its output to what the state stands
for, the outputs of a run together are what was appended. -/
theorem contents_final {α : Type*} {step : σ → ι → σ × ο} {pre : σ → ι → Prop}
    (contents : σ → List α) {chunk : ο → List α}
    (h : ∀ s i, pre s i → contents (step s i).1 = contents s ++ chunk (step s i).2) {s : σ}
    {is : List ι} (hpre : Admits (fun s i => (step s i).1) pre s is) :
    contents (final step s is) = contents s ++ (outputs step s is).flatMap chunk := by
  induction is generalizing s with
  | nil => simp [outputs]
  | cons i is ih =>
    obtain ⟨hi,his⟩ := hpre
    rw [final_cons,ih his,h s i hi,List.append_assoc,outputs,List.flatMap_cons]

/-- What every state of a run has, the first one included: the steps of the run lead to it. -/
theorem forall_take_iff {next : σ → ι → σ} {I : σ → Prop} {s : σ} {is : List ι} :
    (∀ n, I ((is.take n).foldl next s)) ↔ I s ∧ Admits next (fun s i => I (next s i)) s is := by
  induction is generalizing s with
  | nil => simp [Admits]
  | cons i is ih =>
    rw [Admits,← ih]
    constructor
    · exact fun h => ⟨h 0,fun n => h (n+1)⟩
    · rintro ⟨hs,h⟩ n
      cases n with
      | zero => exact hs
      | succ n => exact h n

/-- What no step brings back, once lost, holds in all states of a run or not in the last one. -/
theorem admits_next_iff {next : σ → ι → σ} {P : σ → Prop} (hback : ∀ s i, P (next s i) → P s)
    {s : σ} (is : List ι) (hs : P s) :
    Admits next (fun s i => P (next s i)) s is ↔ P (is.foldl next s) := by
  induction is generalizing s with
  | nil => exact iff_of_true trivial hs
  | cons i is ih =>
    constructor
    · exact fun h => (ih h.1).mp h.2
    · intro hlast
      have hfirst : P (next s i) := by
        clear ih hs
        induction is generalizing s i with
        | nil => exact hlast
        | cons j is ih => exact hback _ j (ih j hlast)
      exact ⟨hfirst,(ih hfirst).mpr hlast⟩

theorem Admits.take {next : σ → ι → σ} {pre : σ → ι → Prop} {s : σ} {is : List ι}
    (h : Admits next pre s is) (n : ℕ) : Admits next pre s (is.take n) := by
  induction is generalizing s n with
  | nil => simpa using h
  | cons i is ih =>
    cases n with
    | zero => trivial
    | succ n => exact ⟨h.1,ih h.2 n⟩

/-- A bound on the own steps of one participant that every step of its own lowers and no other
step raises: with as many own steps in the run the bound comes to zero on the way. -/
theorem exists_take_of_bound (next : σ → ι → σ) (own : ι → Bool) {I : ℕ → σ → Prop}
    (hown : ∀ n s i, I (n+1) s → own i = true → ∃ m ≤ n, I m (next s i))
    (hother : ∀ n s i, I (n+1) s → own i = false → I (n+1) (next s i)) {n : ℕ} {s : σ}
    (is : List ι) (hs : I n s) (hn : n ≤ is.countP own) : ∃ k, I 0 ((is.take k).foldl next s) := by
  induction is generalizing n s with
  | nil =>
    obtain rfl : n = 0 := by simpa using hn
    exact ⟨0,hs⟩
  | cons i is ih =>
    cases n with
    | zero => exact ⟨0,hs⟩
    | succ n =>
      cases hi : own i with
      | true =>
        rw [List.countP_cons_of_pos hi] at hn
        obtain ⟨m,hm,hI⟩ := hown n s i hs hi
        obtain ⟨k,hk⟩ := ih hI (by omega)
        exact ⟨k+1,hk⟩
      | false =>
        rw [List.countP_cons_of_neg (by simp [hi])] at hn
        obtain ⟨k,hk⟩ := ih (hother n s i hs hi) hn
        exact ⟨k+1,hk⟩

end Machine
