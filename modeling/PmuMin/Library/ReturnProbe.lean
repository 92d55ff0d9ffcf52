import Mathlib.Data.Finset.Card

/-! Return probes. A call of a probed function takes an instance from a pool, if one is left, and
keeps it until it returns; what its entry handler leaves there is for its return handler. -/
namespace ReturnProbe

/-- The pool, the data of each instance, which calls hold one, and how many calls found none; and
the history: the calls under way, and the argument each one was entered with. -/
structure State (C D : Type*) where
  free : List ℕ
  data : ℕ → D
  instanceOf : C → Option ℕ
  nmissed : ℕ
  underWay : Finset C
  arg : C → D

variable {C D : Type*}

/-- A new pool of `maxactive` instances. -/
def init (maxactive : ℕ) (data : ℕ → D) (arg : C → D) : State C D :=
  ⟨List.range maxactive,data,fun _ => none,0,∅,arg⟩

section Operations
variable [DecidableEq C]

/-- A call is entered. With an instance its entry handler runs and stores the argument there. -/
def enter (c : C) (d : D) (s : State C D) : Bool × State C D :=
  let s := { s with underWay := insert c s.underWay, arg := Function.update s.arg c d }
  match s.free with
  | [] => (false,{ s with nmissed := s.nmissed + 1 })
  | i :: free =>
    (true,{ s with
      free
      data := Function.update s.data i d
      instanceOf := Function.update s.instanceOf c (some i) })

/-- A call returns. With an instance its return handler runs on the data there. -/
def leave (c : C) (s : State C D) : Option D × State C D :=
  let s := { s with underWay := s.underWay.erase c }
  match s.instanceOf c with
  | none => (none,s)
  | some i =>
    (some (s.data i),{ s with
      free := i :: s.free
      instanceOf := Function.update s.instanceOf c none })

end Operations

/-- No instance is held twice or held while free, and the data of a held one are those of the call
that holds it. As long as no call was missed, each one under way holds an instance. -/
structure Inv (maxactive : ℕ) (s : State C D) : Prop where
  nodup : s.free.Nodup
  held : ∀ c i, s.instanceOf c = some i → c ∈ s.underWay ∧ i ∉ s.free ∧ s.data i = s.arg c
  apart : ∀ c c' i, s.instanceOf c = some i → s.instanceOf c' = some i → c = c'
  served : s.nmissed = 0 → s.free.length + s.underWay.card = maxactive ∧
    ∀ c ∈ s.underWay, (s.instanceOf c).isSome = true

theorem inv_init (maxactive : ℕ) (data : ℕ → D) (arg : C → D) :
    Inv maxactive (init maxactive data arg) where
  nodup := List.nodup_range
  held c i h := by cases h
  apart c c' i h := by cases h
  served _ := ⟨by simp [init],fun c hc => absurd hc (Finset.notMem_empty c)⟩

section Lemmas
variable [DecidableEq C] {maxactive : ℕ} {s : State C D} {c : C}

lemma enter_of_nil (hfree : s.free = []) (d : D) : enter c d s =
    (false,{ s with
      underWay := insert c s.underWay
      arg := Function.update s.arg c d
      nmissed := s.nmissed + 1 }) := by
  simp only [enter,hfree]

lemma enter_of_cons {i : ℕ} {free : List ℕ} (hfree : s.free = i :: free) (d : D) : enter c d s =
    (true,{ s with
      free
      data := Function.update s.data i d
      instanceOf := Function.update s.instanceOf c (some i)
      underWay := insert c s.underWay
      arg := Function.update s.arg c d }) := by
  simp only [enter,hfree]

theorem Inv.enter (h : Inv maxactive s) (hc : c ∉ s.underWay) (d : D) :
    Inv maxactive (enter c d s).2 := by
  have harg : ∀ c' i, s.instanceOf c' = some i → c' ≠ c := by
    rintro c' i hi rfl
    exact hc (h.held c' i hi).1
  cases hfree : s.free with
  | nil =>
    rw [enter_of_nil hfree]
    refine ⟨h.nodup,fun c' i hi => ?_,h.apart,fun hzero => absurd hzero (Nat.succ_ne_zero _)⟩
    obtain ⟨hmem,hfresh,hdata⟩ := h.held c' i hi
    refine ⟨Finset.mem_insert_of_mem hmem,hfresh,?_⟩
    simp only
    rw [Function.update_of_ne (harg c' i hi)]
    exact hdata
  | cons i free =>
    rw [enter_of_cons hfree]
    have hnodup := h.nodup
    rw [hfree] at hnodup
    obtain ⟨hi,hnodup⟩ := List.nodup_cons.mp hnodup
    have hother : ∀ c' j, c' ≠ c → Function.update s.instanceOf c (some i) c' = some j →
        s.instanceOf c' = some j ∧ j ≠ i := by
      intro c' j hne hj
      rw [Function.update_of_ne hne] at hj
      refine ⟨hj,?_⟩
      rintro rfl
      have hfresh := (h.held c' j hj).2.1
      rw [hfree] at hfresh
      exact hfresh List.mem_cons_self
    refine ⟨hnodup,fun c' j hj => ?_,fun c' c'' j hj hj' => ?_,fun hzero => ?_⟩
    · dsimp only at hj ⊢
      rcases eq_or_ne c' c with rfl | hne
      · rw [Function.update_self] at hj
        obtain rfl := Option.some.inj hj
        refine ⟨Finset.mem_insert_self ..,hi,?_⟩
        rw [Function.update_self,Function.update_self]
      · obtain ⟨hj,hji⟩ := hother c' j hne hj
        obtain ⟨hmem,hfresh,hdata⟩ := h.held c' j hj
        refine ⟨Finset.mem_insert_of_mem hmem,fun hmem' => hfresh ?_,?_⟩
        · rw [hfree]
          exact List.mem_cons_of_mem i hmem'
        · rw [Function.update_of_ne hji,Function.update_of_ne hne]
          exact hdata
    · dsimp only at hj hj'
      rcases eq_or_ne c' c with rfl | hne
      · rw [Function.update_self] at hj
        obtain rfl := Option.some.inj hj
        by_contra hne'
        exact (hother c'' i (fun heq => hne' heq.symm) hj').2 rfl
      · obtain ⟨hj,hji⟩ := hother c' j hne hj
        rcases eq_or_ne c'' c with rfl | hne'
        · rw [Function.update_self] at hj'
          exact absurd (Option.some.inj hj').symm hji
        · exact h.apart c' c'' j hj (hother c'' j hne' hj').1
    · obtain ⟨hcount,hall⟩ := h.served hzero
      rw [hfree,List.length_cons] at hcount
      dsimp only
      constructor
      · rw [Finset.card_insert_of_notMem hc]
        omega
      · intro c' hc'
        rcases eq_or_ne c' c with rfl | hne
        · rw [Function.update_self]
          rfl
        · rw [Function.update_of_ne hne]
          exact hall c' (Finset.mem_of_mem_insert_of_ne hc' hne)

theorem Inv.leave (h : Inv maxactive s) (hc : c ∈ s.underWay) : Inv maxactive (leave c s).2 := by
  rw [ReturnProbe.leave]
  dsimp only
  cases hinst : s.instanceOf c with
  | none =>
    refine ⟨h.nodup,fun c' i hi => ?_,h.apart,fun hzero => ?_⟩
    · obtain ⟨hmem,hrest⟩ := h.held c' i hi
      refine ⟨Finset.mem_erase_of_ne_of_mem ?_ hmem,hrest⟩
      rintro rfl
      rw [hinst] at hi
      cases hi
    · have hsome := (h.served hzero).2 c hc
      rw [hinst] at hsome
      cases hsome
  | some i =>
    obtain ⟨-,hfresh,-⟩ := h.held c i hinst
    have hother : ∀ c' j, Function.update s.instanceOf c none c' = some j →
        c' ≠ c ∧ s.instanceOf c' = some j ∧ j ≠ i := by
      intro c' j hj
      rcases eq_or_ne c' c with rfl | hne
      · rw [Function.update_self] at hj
        cases hj
      · rw [Function.update_of_ne hne] at hj
        refine ⟨hne,hj,?_⟩
        rintro rfl
        exact hne (h.apart c' c j hj hinst)
    refine ⟨List.nodup_cons.mpr ⟨hfresh,h.nodup⟩,fun c' j hj => ?_,fun c' c'' j hj hj' => ?_,
      fun hzero => ?_⟩
    · obtain ⟨hne,hj,hji⟩ := hother c' j hj
      obtain ⟨hmem,hj',hdata⟩ := h.held c' j hj
      exact ⟨Finset.mem_erase_of_ne_of_mem hne hmem,List.not_mem_cons_of_ne_of_not_mem hji hj',hdata⟩
    · exact h.apart c' c'' j (hother c' j hj).2.1 (hother c'' j hj').2.1
    · obtain ⟨hcount,hall⟩ := h.served hzero
      constructor
      · have hpos := Finset.card_pos.mpr ⟨c,hc⟩
        rw [Finset.card_erase_of_mem hc,List.length_cons]
        omega
      · intro c' hc'
        obtain ⟨hne,hmem⟩ := Finset.mem_erase.mp hc'
        dsimp only
        rw [Function.update_of_ne hne]
        exact hall c' hmem

/-- As long as no call was missed, the next one is missed exactly if `maxactive` are under way. -/
theorem Inv.nmissed_enter_iff (h : Inv maxactive s) (hzero : s.nmissed = 0) (d : D) :
    (ReturnProbe.enter c d s).2.nmissed = 0 ↔ s.underWay.card < maxactive := by
  obtain ⟨hcount,-⟩ := h.served hzero
  cases hfree : s.free with
  | nil =>
    rw [enter_of_nil hfree]
    rw [hfree,List.length_nil] at hcount
    exact iff_of_false (Nat.succ_ne_zero _) (by omega)
  | cons i free =>
    rw [enter_of_cons hfree]
    rw [hfree,List.length_cons] at hcount
    exact iff_of_true hzero (by omega)

/-- An entry handler runs unless the call is missed. -/
lemma enter_fst (c : C) (d : D) (s : State C D) :
    (ReturnProbe.enter c d s).1 = true ↔ (ReturnProbe.enter c d s).2.nmissed = s.nmissed := by
  cases hfree : s.free with
  | nil =>
    rw [enter_of_nil hfree]
    exact iff_of_false Bool.false_ne_true (Nat.succ_ne_self _)
  | cons i free =>
    rw [enter_of_cons hfree]
    exact iff_of_true rfl rfl

lemma nmissed_le_enter (c : C) (d : D) (s : State C D) :
    s.nmissed ≤ (ReturnProbe.enter c d s).2.nmissed := by
  cases hfree : s.free with
  | nil =>
    rw [enter_of_nil hfree]
    exact Nat.le_succ _
  | cons i free =>
    rw [enter_of_cons hfree]

@[simp] lemma nmissed_leave (c : C) (s : State C D) :
    (ReturnProbe.leave c s).2.nmissed = s.nmissed := by
  rw [ReturnProbe.leave]
  dsimp only
  cases s.instanceOf c <;> rfl

/-- A return handler finds what the entry handler of its own call has stored. -/
theorem Inv.leave_fst (h : Inv maxactive s) {d : D} (hd : (ReturnProbe.leave c s).1 = some d) :
    d = s.arg c := by
  rw [ReturnProbe.leave] at hd
  dsimp only at hd
  cases hinst : s.instanceOf c with
  | none =>
    rw [hinst] at hd
    cases hd
  | some i =>
    rw [hinst] at hd
    exact (Option.some.inj hd).symm.trans (h.held c i hinst).2.2

theorem Inv.leave_fst_eq (h : Inv maxactive s) (hzero : s.nmissed = 0) (hc : c ∈ s.underWay) :
    (ReturnProbe.leave c s).1 = some (s.arg c) := by
  obtain ⟨i,hi⟩ := Option.isSome_iff_exists.mp ((h.served hzero).2 c hc)
  have hsome : (ReturnProbe.leave c s).1 = some (s.data i) := by
    rw [ReturnProbe.leave]
    dsimp only
    rw [hi]
  rw [hsome,h.leave_fst hsome]

end Lemmas
end ReturnProbe
