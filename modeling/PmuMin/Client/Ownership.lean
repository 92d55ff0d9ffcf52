import PmuMin.Client.Heap
import PmuMin.Tracker.Ledger

/-! Who owns a `proc_data` block: the tracker, once, from the call that allocates it to the exit
that frees it. The three builds break this balance where an insertion does not keep the block it
is given, or drops another one. -/
namespace PmuMin.Client
open Machine Occurrences

section Ledger
variable {Task σ : Type} {T : Tracker Task σ} (L : Ledger T)

/-- The heap is sound, and its allocated blocks are the non-NULL data of the tracker, each of them
held once. -/
def Conserved (h : Heap) (s : σ) : Prop :=
  h.corrupted = false ∧ ∀ a, a ≠ NULL → L.held s a = if h.procData a then 1 else 0

/-- `tracker_add` keeps the datum, unless it is NULL, and drops no other one. -/
def HandsOver (ctx : Context) (s : σ) (task : Task) (data : Word) : Prop :=
  (data ≠ NULL → L.stores ctx s task = true) ∧ L.displaced s task = NULL

/-- The condition under which a call keeps the balance. -/
def Keeps (build : Build) (s : Heap × σ) : Event Task → Prop
  | .register _ none _ => True
  | .register task (some b) ctx => HandsOver L ctx s.2 task b.addr
  | .fork parent child kmalloc _ ctx =>
    T.queryTracker ctx s.2 parent = true → HandsOver L ctx s.2 child (datum kmalloc)
  | .exit task _ => s.1.Detachable build (L.first s.2 task)
  | .pmi _ _ => True

instance (ctx : Context) (s : σ) (task : Task) (data : Word) :
    Decidable (HandsOver L ctx s task data) :=
  inferInstanceAs (Decidable (_ ∧ _))

instance (build : Build) (s : Heap × σ) : DecidablePred (Keeps L build s)
  | .register task (some b) ctx => inferInstanceAs (Decidable (HandsOver L ctx s.2 task b.addr))
  | .fork parent child kmalloc _ ctx => inferInstanceAs
      (Decidable (T.queryTracker ctx s.2 parent = true → HandsOver L ctx s.2 child (datum kmalloc)))
  | .exit task _ => inferInstanceAs (Decidable (s.1.Detachable build (L.first s.2 task)))
  | .register _ none _ | .pmi _ _ => inferInstanceAs (Decidable True)

/-- The states between two calls of a balanced run. -/
structure Balanced (h : Heap) (s : σ) : Prop where
  valid : L.Valid s
  intact : h.Intact
  held : ∀ a, a ≠ NULL → L.held s a = if h.procData a then 1 else 0

variable {L}

section Insertion
variable {h h' : Heap} {s : σ} {ctx : Context} {task : Task} {data : Word} (hb : Balanced L h s)
  (hdata : Canonical data) (hnew : data ≠ NULL → h.procData data = false)
  (hproc : ∀ a, a ≠ NULL → (h'.procData a = true ↔ h.procData a = true ∨ a = data))
include hb hdata hnew hproc

/-- A new block that is live after the insertion has been kept. -/
lemma Balanced.stores_of_conserved (hc : Conserved L h' (T.trackerAdd ctx s task data).1)
    (hne : data ≠ NULL) : L.stores ctx s task = true := by
  by_contra hstores
  have hheld := L.held_add hb.valid ctx task hdata hne
  have hlive := hc.2 data hne
  rw [if_neg hstores,hb.held data hne,hnew hne] at hheld
  rw [if_pos ((hproc data hne).mpr (.inr rfl))] at hlive
  simp only [Bool.false_eq_true,if_false] at hheld
  omega

/-- A block that is displaced is live and held no longer. -/
lemma Balanced.displaced_of_conserved (hc : Conserved L h' (T.trackerAdd ctx s task data).1) :
    L.displaced s task = NULL := by
  by_contra hdisp
  have hheld := L.held_add hb.valid ctx task hdata hdisp
  have hlive := hc.2 _ hdisp
  rw [hit_self,hb.held _ hdisp] at hheld
  by_cases hd : L.displaced s task = data
  · have hne : data ≠ NULL := hd ▸ hdisp
    rw [hd,hnew hne] at hheld
    rw [if_pos ((hproc _ hdisp).mpr (.inr hd)),hd] at hlive
    simp only [Bool.false_eq_true,if_false,hit_self] at hheld
    split at hheld <;> omega
  · rw [hit_of_ne (Ne.symm hd),ite_self] at hheld
    by_cases hp : h.procData (L.displaced s task) = true
    · rw [if_pos ((hproc _ hdisp).mpr (.inl hp))] at hlive
      rw [if_pos hp] at hheld
      omega
    · rw [if_neg hp] at hheld
      omega

end Insertion

/-- An insertion of a new block, or of NULL, keeps the balance exactly when it hands over. -/
theorem conserved_add_iff {h h' : Heap} {s : σ} (hb : Balanced L h s) (ctx : Context)
    (task : Task) {data : Word} (hdata : Canonical data)
    (hnew : data ≠ NULL → h.procData data = false) (hsound : h'.corrupted = false)
    (hproc : ∀ a, a ≠ NULL → (h'.procData a = true ↔ h.procData a = true ∨ a = data)) :
    Conserved L h' (T.trackerAdd ctx s task data).1 ↔ HandsOver L ctx s task data := by
  constructor
  · intro hc
    exact ⟨hb.stores_of_conserved hdata hnew hproc hc,hb.displaced_of_conserved hdata hnew hproc hc⟩
  · rintro ⟨hstores,hdisp⟩
    refine ⟨hsound,fun a ha => ?_⟩
    have hheld := L.held_add hb.valid ctx task hdata ha
    rw [hdisp,hit_of_ne ha.symm,hb.held a ha,Nat.add_zero] at hheld
    by_cases had : a = data
    · subst had
      rw [hstores ha,hnew ha] at hheld
      rw [if_pos ((hproc a ha).mpr (.inr rfl))]
      simpa using hheld
    · rw [hit_of_ne (Ne.symm had),ite_self,Nat.add_zero] at hheld
      rw [hheld]
      exact if_congr (by rw [hproc a ha]; simp [had]) rfl rfl

section Removal
variable {build : Build} {h : Heap} {s : σ} (hb : Balanced L h s) (ctx : Context) (task : Task)
include hb

lemma Balanced.live_first (hfirst : L.first s task ≠ NULL) :
    h.procData (L.first s task) = true ∧ L.held s (L.first s task) = 1 := by
  have hpos := L.held_first hb.valid hfirst
  have hheld := hb.held _ hfirst
  split at hheld
  · rename_i hlive
    exact ⟨hlive,hheld⟩
  · omega

/-- A detach that frees no other block, and nothing that is not allocated, has found its list. -/
lemma Balanced.detachable_of_conserved
    (hc : Conserved L (clientHookOnDetach build h (L.first s task)) (T.trackerDel ctx s task).1) :
    h.Detachable build (L.first s task) := by
  intro hfirst hfrees
  obtain ⟨hsound,hheld'⟩ := hc
  by_contra hnot
  obtain ⟨hnull,hlist⟩ := not_or.mp hnot
  have hfini : bufferingDynamicFini build h (h.clist (L.first s task)) =
      h.kfree (h.clist (L.first s task)) := by
    rw [bufferingDynamicFini_eq,if_pos hfrees]
  rw [clientHookOnDetach,if_neg hfirst,hfini,Heap.kfree,if_neg hfirst] at hsound
  obtain ⟨hkept,hown⟩ := Bool.or_eq_false_iff.mp hsound
  rw [Heap.kfree,if_neg hnull] at hkept hown
  have hblock : h.procData (h.clist (L.first s task)) = true := by
    simpa [hb.intact.sound,Heap.allocated,hlist] using hkept
  by_cases hself : h.clist (L.first s task) = L.first s task
  · -- the block would be freed twice
    simp [Heap.allocated,hself] at hown
  · have hdel := L.held_del hb.valid ctx task hnull
    have hlive := hheld' _ hnull
    rw [hit_of_ne (Ne.symm hself),hb.held _ hnull,if_pos hblock,Nat.add_zero] at hdel
    have hgone : ¬ (clientHookOnDetach build h (L.first s task)).procData
        (h.clist (L.first s task)) = true := fun hfree =>
      ((procData_clientHookOnDetach build h hfirst hnull).mp hfree).2.1 hfrees rfl
    rw [if_neg hgone,hdel] at hlive
    exact one_ne_zero hlive

/-- A removal keeps the balance exactly when the detach finds NULL or a list. -/
theorem conserved_del_iff :
    Conserved L (clientHookOnDetach build h (L.first s task)) (T.trackerDel ctx s task).1 ↔
      h.Detachable build (L.first s task) := by
  refine ⟨hb.detachable_of_conserved ctx task,fun hlist => ⟨?_,fun a ha => ?_⟩⟩
  · exact (hb.intact.detach (fun hfirst => (hb.live_first task hfirst).1) hlist).sound
  · have hdel := L.held_del hb.valid ctx task ha
    by_cases hfirst : L.first s task = NULL
    · rw [hfirst,hit_of_ne ha.symm,Nat.add_zero] at hdel
      rw [hfirst,clientHookOnDetach,if_pos rfl]
      exact hdel.trans (hb.held a ha)
    · have hproc : (clientHookOnDetach build h (L.first s task)).procData a = true ↔
          h.procData a = true ∧ a ≠ L.first s task := by
        rw [clientHookOnDetach,if_neg hfirst,Heap.procData_kfree _ ha,
          (hb.intact.bufferingDynamicFini hfirst hlist).2]
      by_cases haf : a = L.first s task
      · rw [haf,hit_self,(hb.live_first task hfirst).2] at hdel
        rw [if_neg fun hlive => (hproc.mp hlive).2 haf,haf]
        omega
      · rw [hit_of_ne (Ne.symm haf),Nat.add_zero,hb.held a ha] at hdel
        rw [hdel]
        exact if_congr (hproc.trans (and_iff_left haf)).symm rfl rfl

end Removal

section Step
variable (build : Build)

theorem next_fork (s : Heap × σ) (parent child : Task) (kmalloc : Option Block)
    (kvmalloc : Option Word) (ctx : Context) :
    next build T s (.fork parent child kmalloc kvmalloc ctx) =
      if T.queryTracker ctx s.2 parent then
        ((clientHookOnAttach build kmalloc kvmalloc s.1).1,
          (T.trackerAdd ctx s.2 child (datum kmalloc)).1)
      else s := by
  simp only [next,trackForkWrapper,clientHookOnAttach_snd]

theorem next_exit {s : Heap × σ} (hs : L.Valid s.2) (task : Task) (ctx : Context) :
    next build T s (.exit task ctx) =
      (clientHookOnDetach build s.1 (L.first s.2 task),(T.trackerDel ctx s.2 task).1) := by
  simp only [next,trackExitWrapper,L.del_snd hs]

theorem valid_next {s : Heap × σ} (hs : L.Valid s.2) (e : Event Task) :
    L.Valid (next build T s e).2 := by
  cases e with
  | register task kmalloc ctx =>
    cases kmalloc with
    | none => exact hs
    | some b => exact L.valid_add hs ctx task b.addr
  | fork parent child kmalloc kvmalloc ctx =>
    rw [next_fork]
    split
    · exact L.valid_add hs ctx child _
    · exact hs
  | exit task ctx => exact L.valid_del hs ctx task
  | pmi task ctx => exact hs

lemma Balanced.intact_attach {s : Heap × σ} (hb : Balanced L s.1 s.2) {parent child : Task}
    {kmalloc : Option Block} {kvmalloc : Option Word} {ctx : Context}
    (he : Allocates s (.fork parent child kmalloc kvmalloc ctx)) :
    (clientHookOnAttach build kmalloc kvmalloc s.1).1.Intact := by
  refine hb.intact.attach build fun b hsome => ⟨(he.fork hsome).2,fun list hlist => ?_⟩
  subst hsome
  exact he.list hlist

/-- One call keeps the balance exactly under its condition. -/
theorem conserved_next_iff {s : Heap × σ} (hb : Balanced L s.1 s.2) {e : Event Task}
    (he : Allocates s e) :
    Conserved L (next build T s e).1 (next build T s e).2 ↔ Keeps L build s e := by
  cases e with
  | register task kmalloc ctx =>
    cases kmalloc with
    | none => exact iff_of_true ⟨hb.intact.sound,hb.held⟩ trivial
    | some b =>
      obtain ⟨hcan,hfree⟩ := he
      refine conserved_add_iff hb ctx task hcan (fun _ => (hb.intact.free hfree).1)
        hb.intact.sound fun a _ => ?_
      change Function.update s.1.procData b.addr true a = true ↔ _
      by_cases hab : a = b.addr <;> simp [hab]
  | fork parent child kmalloc kvmalloc ctx =>
    rw [next_fork]
    by_cases hq : T.queryTracker ctx s.2 parent = true
    · rw [if_pos hq]
      obtain ⟨hcan,hnew⟩ := he.datum hb.intact.sound
      have hadd := conserved_add_iff hb ctx child hcan hnew (hb.intact_attach build he).sound
        fun a ha => procData_clientHookOnAttach build s.1 kmalloc kvmalloc ha
      exact hadd.trans ⟨fun hh _ => hh,fun hh => hh hq⟩
    · rw [if_neg hq]
      exact iff_of_true ⟨hb.intact.sound,hb.held⟩ (fun hq' => absurd hq' hq)
  | exit task ctx =>
    rw [next_exit build hb.valid]
    exact conserved_del_iff hb ctx task
  | pmi task ctx => exact iff_of_true ⟨hb.intact.sound,hb.held⟩ trivial

theorem Balanced.next {s : Heap × σ} (hb : Balanced L s.1 s.2) {e : Event Task}
    (he : Allocates s e) (hk : Keeps L build s e) :
    Balanced L (next build T s e).1 (next build T s e).2 where
  valid := valid_next build hb.valid e
  intact := by
    cases e with
    | register task kmalloc ctx =>
      cases kmalloc with
      | none => exact hb.intact
      | some b => exact hb.intact.kmalloc he.2
    | fork parent child kmalloc kvmalloc ctx =>
      rw [next_fork]
      split
      · exact hb.intact_attach build he
      · exact hb.intact
    | exit task ctx =>
      rw [next_exit build hb.valid]
      exact hb.intact.detach (fun hfirst => (hb.live_first task hfirst).1) hk
    | pmi task ctx => exact hb.intact
  held := ((conserved_next_iff build hb he).mpr hk).2

theorem Balanced.init [DecidableEq Task] {s : σ} (h : Starts L s) : Balanced L .empty s where
  valid := h.valid
  intact := Heap.intact_empty
  held _ ha := h.held ha

end Step
end Ledger

/-- A block whose node cannot be allocated stays behind, although the registration fails. -/
theorem register_error_leaks :
    let T := Hash.tracker (fun _ => 0) (fun _ : Unit => 1)
    let build : Build := ⟨.none,.none,8⟩
    let run := [Event.register () (some ⟨16,0⟩) ⟨0,false,true⟩]
    Admits (next build T) Allocates (.empty,Hash.trackerInit) run ∧
      (registerProcess T (some ⟨16,0⟩) ⟨0,false,true⟩ (.empty,Hash.trackerInit) ()).2 = -ENOMEM ∧
      ¬ Admits (next build T) (fun s e => Conserved (Hash.ledger (fun _ => 0) (fun _ : Unit => 1))
        (next build T s e).1 (next build T s e).2) (.empty,Hash.trackerInit) run := by
  intro T build run
  have hrun : Admits (next build T) Allocates (.empty,Hash.trackerInit) run := by decide
  refine ⟨hrun,rfl,fun h => ?_⟩
  have hkeeps := (conserved_next_iff build (Balanced.init (Starts.hash _ _)) hrun.1).mp h.1
  exact Bool.false_ne_true (hkeeps.1 (by decide))

/-- The blocks allocated and not yet freed are the data the tracker holds, after every call of a
run, exactly when every insertion in it hands its block over and every detach that frees what the
`clist` field points to finds NULL or a list there. -/
theorem ownership_conserved_iff {Task σ : Type} [DecidableEq Task] {T : Tracker Task σ}
    {L : Ledger T} {s : σ} (hstart : Starts L s) (build : Build) {events : List (Event Task)}
    (hrun : Admits (next build T) Allocates (.empty,s) events) :
    Admits (next build T) (fun s e => Conserved L (next build T s e).1 (next build T s e).2)
        (.empty,s) events ↔
      Admits (next build T) (Keeps L build) (.empty,s) events :=
  admits_iff_admits (I := fun s => Balanced L s.1 s.2)
    (fun _ _ hI he => conserved_next_iff build hI he)
    (fun _ _ hI he hk => hI.next build he hk) (Balanced.init hstart) hrun

/-- A task is registered, its child inherits and exits. -/
theorem ownership_conserved_family :
    let T := Hash.tracker (fun _ => 0) (fun t : Fin 2 => t.val)
    let build : Build := ⟨.thread,.nblist,8⟩
    Admits (next build T) (fun s e => Conserved (Hash.ledger (fun _ => 0) (fun t : Fin 2 => t.val))
        (next build T s e).1 (next build T s e).2) (.empty,Hash.trackerInit)
      [.register 0 (some ⟨16,0⟩) calm,.fork 0 1 (some ⟨32,7⟩) (some 64) calm,.exit 1 calm] :=
  (ownership_conserved_iff (.hash (fun _ => 0) (fun t : Fin 2 => t.val)) ⟨.thread,.nblist,8⟩
    (by decide)).mpr (by decide)

end PmuMin.Client
