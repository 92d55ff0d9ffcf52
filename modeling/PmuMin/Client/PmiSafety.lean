import PmuMin.Client.Heap
import PmuMin.Tracker.Split

/-! PMIs against exit hooks under way. Each exit is a sequence of steps, from the first step of
`tracker_del` to the last `kfree` of the callback, and registrations, forks and the steps of other
tasks' exits may stand between any two of them. -/
namespace PmuMin.Client
open Machine Occurrences

/-- Where the exit hook of a task stands: not called, in `tracker_del`, before
`client_hook_on_detach` and before the `kfree` in it. -/
inductive Phase (R : Type)
  | idle
  | removing (pc : R)
  | detaching (data : Word)
  | freeing (data : Word)
  deriving DecidableEq, Repr

/-- The datum in the hands of the callback. -/
def Phase.data {R : Type} : Phase R → Word
  | .idle | .removing _ => NULL
  | .detaching data | .freeing data => data

structure Config (Task σ R : Type) where
  heap : Heap
  tracker : σ
  phase : Task → Phase R

section Steps
variable {Task σ R : Type} [DecidableEq Task] (build : Build) (S : SplitTracker Task σ R)

/-- One step of `tracker_del`. -/
def delStep (c : Config Task σ R) (task : Task) (pc : R) : Config Task σ R :=
  let r := S.delStep c.tracker task pc
  { c with
    tracker := r.1
    phase := Function.update c.phase task (r.2.elim .removing .detaching) }

/-- One step of `track_exit_wrapper`. -/
def exitStep (c : Config Task σ R) (task : Task) : Config Task σ R :=
  match c.phase task with
  | .idle => delStep S c task S.start
  | .removing pc => delStep S c task pc
  | .detaching data =>
    if data = NULL then { c with phase := Function.update c.phase task .idle }
    else
      { c with
        heap := bufferingDynamicFini build c.heap (c.heap.clist data)
        phase := Function.update c.phase task (.freeing data) }
  | .freeing data =>
    { c with heap := c.heap.kfree data, phase := Function.update c.phase task .idle }

/-- A registration and a fork hook as one step each, an exit hook step by step. -/
def splitNext (c : Config Task σ R) : Event Task → Config Task σ R
  | .register task kmalloc ctx =>
    let r := (registerProcess S.toTracker kmalloc ctx (c.heap,c.tracker) task).1
    { c with heap := r.1, tracker := r.2 }
  | .fork parent child kmalloc kvmalloc ctx =>
    let r := trackForkWrapper S.toTracker (clientHookOnAttach build kmalloc kvmalloc) ctx
      (c.heap,c.tracker) parent child
    { c with heap := r.1, tracker := r.2 }
  | .exit task _ => exitStep build S c task
  | .pmi _ _ => c

/-- The allocator keeps its promises, and what needs the tracker's lock finds it free. -/
def Enabled (c : Config Task σ R) (e : Event Task) : Prop :=
  Allocates (c.heap,c.tracker) e ∧
    match e with
    | .register _ _ _ => S.busy c.tracker = false
    | .exit task _ => c.phase task = .idle → S.busy c.tracker = false
    | _ => True

instance (c : Config Task σ R) [DecidableEq R] : DecidablePred (Enabled S c)
  | .register _ _ _ => inferInstanceAs (Decidable (_ ∧ S.busy c.tracker = false))
  | .exit task _ =>
    inferInstanceAs (Decidable (_ ∧ (c.phase task = .idle → S.busy c.tracker = false)))
  | .fork .. | .pmi _ _ => inferInstanceAs (Decidable (_ ∧ True))

/-- A detach that is about to free what the `clist` field of its block points to finds NULL or a
list there. -/
def SparesDetach (h : Heap) : Phase R → Prop
  | .detaching data => h.Detachable build data
  | _ => True

omit [DecidableEq Task] in
instance (h : Heap) : DecidablePred (SparesDetach (R := R) build h)
  | .detaching data => inferInstanceAs (Decidable (h.Detachable build data))
  | .idle | .removing _ | .freeing _ => inferInstanceAs (Decidable True)

def SparesStep (c : Config Task σ R) : Event Task → Prop
  | .exit task _ => SparesDetach build c.heap (c.phase task)
  | _ => True

instance (c : Config Task σ R) : DecidablePred (SparesStep build c)
  | .exit task _ => inferInstanceAs (Decidable (SparesDetach build c.heap (c.phase task)))
  | .register .. | .fork .. | .pmi _ _ => inferInstanceAs (Decidable True)

/-- A removal that nothing interrupts ends in front of the callback. -/
lemma exitStep_runDel (task : Task) {fuel : ℕ} {c : Config Task σ R} {pc : R} {s' : σ}
    {data : Word} (hstep : exitStep build S c task = delStep S c task pc)
    (hrun : S.runDel c.tracker task fuel pc = some (s',data)) :
    ∃ n, (exitStep build S · task)^[n] c =
      ⟨c.heap,s',Function.update c.phase task (.detaching data)⟩ := by
  induction fuel generalizing c pc with
  | zero => cases hrun
  | succ fuel ih =>
    simp only [SplitTracker.runDel] at hrun
    rcases hdel : S.delStep c.tracker task pc with ⟨t,pc' | d⟩
    · rw [hdel] at hrun
      have hnext : exitStep build S c task =
          ⟨c.heap,t,Function.update c.phase task (.removing pc')⟩ := by
        rw [hstep]
        simp [delStep,hdel]
      have hstep' : exitStep build S (exitStep build S c task) task =
          delStep S (exitStep build S c task) task pc' := by
        rw [hnext]
        simp [exitStep]
      obtain ⟨n,hn⟩ := ih hstep' (by rw [hnext]; exact hrun)
      refine ⟨n+1,?_⟩
      rw [Function.iterate_succ_apply,hn,hnext]
      simp
    · rw [hdel] at hrun
      obtain ⟨rfl,rfl⟩ := Prod.mk.inj (Option.some.inj hrun)
      exact ⟨1,by simp [hstep,delStep,hdel]⟩

/-- The steps of an exit hook that nothing interrupts are `track_exit_wrapper`. -/
theorem exitStep_uninterrupted (hS : S.Composes) (task : Task) (ctx : Context)
    {c : Config Task σ R} (hphase : c.phase task = .idle) (hbusy : S.busy c.tracker = false) :
    ∃ n, (exitStep build S · task)^[n] c =
      let r := next build S.toTracker (c.heap,c.tracker) (.exit task ctx)
      ⟨r.1,r.2,c.phase⟩ := by
  obtain ⟨fuel,hrun⟩ := hS ctx c.tracker task hbusy
  obtain ⟨n,hn⟩ := exitStep_runDel build S task (by simp only [exitStep,hphase]) hrun
  have hidle : Function.update c.phase task .idle = c.phase := by
    rw [← hphase,Function.update_eq_self]
  by_cases hdata : (S.trackerDel ctx c.tracker task).2 = NULL
  · refine ⟨n+1,?_⟩
    rw [Function.iterate_succ_apply',hn]
    simp [exitStep,next,trackExitWrapper,clientHookOnDetach,hdata,hidle]
  · refine ⟨n+2,?_⟩
    rw [Function.iterate_succ_apply',Function.iterate_succ_apply',hn]
    simp [exitStep,next,trackExitWrapper,clientHookOnDetach,hdata,hidle]

section Ledger
variable {S} (L : SplitLedger S)

/-- The block that the exit hook of a task has taken out of the tracker and not yet freed. -/
def pending (c : Config Task σ R) (task : Task) : Word :=
  match c.phase task with
  | .removing pc => L.carries c.tracker task pc
  | phase => phase.data

/-- One for an allocated block. -/
def live (h : Heap) (a : Word) : ℕ := if h.procData a then 1 else 0

/-- A block is allocated as long as the tracker holds it or an exit hook carries it, and only
one of them does, once. -/
structure Custody (c : Config Task σ R) : Prop where
  valid : L.Valid c.tracker
  intact : c.heap.Intact
  supported : Supported NULL (pending L c)
  bound : ∀ a, a ≠ NULL → L.held c.tracker a + count (pending L c) a ≤ live c.heap a

variable {L}

lemma Custody.update {c c' : Config Task σ R} (hc : Custody L c) (task : Task) (x : Word)
    (hvalid : L.Valid c'.tracker) (hintact : c'.heap.Intact)
    (hpending : pending L c' = Function.update (pending L c) task x)
    (hle : ∀ a, a ≠ NULL → L.held c'.tracker a + hit x a + live c.heap a ≤
      L.held c.tracker a + hit (pending L c task) a + live c'.heap a) : Custody L c' where
  valid := hvalid
  intact := hintact
  supported := hpending ▸ hc.supported.update task x
  bound a ha := by
    have hcount := count_update hc.supported ha task x
    have hbound := hc.bound a ha
    have hstep := hle a ha
    rw [hpending]
    omega

lemma live_kmalloc {h h' : Heap} {data : Word} (hnew : data ≠ NULL → h.procData data = false)
    (hproc : ∀ a, a ≠ NULL → (h'.procData a = true ↔ h.procData a = true ∨ a = data)) {a : Word}
    (ha : a ≠ NULL) : live h a + hit data a ≤ live h' a := by
  unfold live
  by_cases had : a = data
  · subst had
    simp [hnew ha,(hproc a ha).mpr (.inr rfl)]
  · rw [hit_of_ne (Ne.symm had),if_congr (hproc a ha) rfl rfl]
    simp [had]

/-- An insertion, also one for a task whose exit hook is under way. -/
lemma Custody.add {c : Config Task σ R} (hc : Custody L c) {h' : Heap} (ctx : Context)
    (task : Task) {data : Word} (hdata : Canonical data)
    (hnew : data ≠ NULL → c.heap.procData data = false) (hintact : h'.Intact)
    (hproc : ∀ a, a ≠ NULL → (h'.procData a = true ↔ c.heap.procData a = true ∨ a = data)) :
    Custody L ⟨h',(S.trackerAdd ctx c.tracker task data).1,c.phase⟩ := by
  let c' : Config Task σ R := ⟨h',(S.trackerAdd ctx c.tracker task data).1,c.phase⟩
  refine hc.update task (pending L c' task) (L.valid_add hc.valid ctx task data) hintact
    (Function.eq_update_iff.mpr ⟨rfl,fun t ht => ?_⟩) fun a ha => ?_
  · simp only [pending]
    cases c.phase t with
    | removing pc => exact L.add_other ctx c.tracker ht data pc
    | idle | detaching _ | freeing _ => rfl
  · have hlive := live_kmalloc hnew hproc ha
    have hadd : L.held (S.trackerAdd ctx c.tracker task data).1 a + hit (pending L c' task) a ≤
        L.held c.tracker a + hit (pending L c task) a + hit data a := by
      have hself := fun pc => L.add_self hc.valid ctx task pc hdata ha
      simp only [pending,c']
      cases c.phase task with
      | removing pc => exact hself pc
      | idle =>
        have hs := hself S.start
        rwa [L.carries_start,L.carries_start] at hs
      | detaching d | freeing d =>
        have hs := hself S.start
        rw [L.carries_start,L.carries_start] at hs
        change _ + hit d a ≤ _ + hit d a + _
        omega
    change L.held (S.trackerAdd ctx c.tracker task data).1 a + _ + _ ≤ _ + _ + live h' a
    omega

/-- A step of `tracker_del` moves a datum from the tracker to its exit hook. -/
lemma Custody.delStep {c : Config Task σ R} (hc : Custody L c) (task : Task) (pc : R)
    (hpc : pending L c task = L.carries c.tracker task pc) :
    Custody L (delStep S c task pc) := by
  refine hc.update task
    ((S.delStep c.tracker task pc).2.elim (L.carries (S.delStep c.tracker task pc).1 task) id)
    (L.valid_del hc.valid task pc) hc.intact (Function.eq_update_iff.mpr ⟨?_,fun t ht => ?_⟩)
    fun a ha => ?_
  · simp only [pending,Client.delStep,Function.update_self]
    cases (S.delStep c.tracker task pc).2 <;> rfl
  · simp only [pending,Client.delStep,Function.update_of_ne ht]
    cases c.phase t with
    | removing pc' => exact L.del_other c.tracker ht pc pc'
    | idle | detaching _ | freeing _ => rfl
  · have hself := L.del_self hc.valid task pc ha
    rw [hpc]
    exact Nat.add_le_add_right hself _

/-- A step of the callback, which leaves the tracker as it is. -/
lemma Custody.setPhase {c : Config Task σ R} (hc : Custody L c) (task : Task) {phase : Phase R}
    (hphase : ∀ pc, phase ≠ .removing pc) {h' : Heap} (hintact : h'.Intact)
    (hle : ∀ a, a ≠ NULL →
      hit phase.data a + live c.heap a ≤ hit (pending L c task) a + live h' a) :
    Custody L ⟨h',c.tracker,Function.update c.phase task phase⟩ := by
  refine hc.update task phase.data hc.valid hintact
    (Function.eq_update_iff.mpr ⟨?_,fun t ht => ?_⟩) fun a ha => ?_
  · simp [pending]
  · simp [pending,Function.update_of_ne ht]
  · have hstep := hle a ha
    change L.held c.tracker a + hit phase.data a + live c.heap a ≤ _ + _ + live h' a
    omega

lemma live_kfree (h : Heap) {a : Word} (ha : a ≠ NULL) (data : Word) :
    live h a ≤ hit data a + live (h.kfree data) a := by
  unfold live
  rw [if_congr (Heap.procData_kfree h ha data) rfl rfl]
  by_cases had : a = data
  · subst had
    rw [hit_self]
    split <;> omega
  · simp [had]

lemma Custody.live_pending {c : Config Task σ R} (hc : Custody L c) (task : Task) {data : Word}
    (hdata : pending L c task = data) : data = NULL ∨ c.heap.allocated data = true := by
  refine or_iff_not_imp_left.mpr fun hne => ?_
  have hbound := hc.bound data hne
  have hcount := count_update hc.supported hne task NULL
  rw [hdata,hit_self,hit_of_ne (Ne.symm hne)] at hcount
  by_contra hdead
  have hlive : live c.heap data = 0 := by
    unfold live
    rw [if_neg fun hp => hdead (by rw [Heap.allocated,hp]; rfl)]
  omega

lemma Custody.exitStep {c : Config Task σ R} (hc : Custody L c) (task : Task)
    (hspares : SparesDetach build c.heap (c.phase task)) :
    Custody L (exitStep build S c task) := by
  unfold Client.exitStep
  split
  · rename_i hphase
    exact hc.delStep task S.start (by simp only [pending,hphase,L.carries_start]; rfl)
  · rename_i pc hphase
    exact hc.delStep task pc (by simp only [pending,hphase])
  · rename_i data hphase
    have hpend : pending L c task = data := by simp only [pending,hphase]; rfl
    split
    · exact hc.setPhase task (by simp) hc.intact fun a ha => by simp [Phase.data,hit_of_ne ha.symm]
    · rename_i hdata
      rw [hphase] at hspares
      obtain ⟨hintact,hproc⟩ := hc.intact.bufferingDynamicFini hdata hspares
      refine hc.setPhase task (by simp) hintact fun a ha => ?_
      rw [hpend,live,live,hproc]
      rfl
  · rename_i data hphase
    have hpend : pending L c task = data := by simp only [pending,hphase]; rfl
    apply hc.setPhase task (by simp) (hc.intact.kfree (hc.live_pending task hpend))
    intro a ha
    have hfree := live_kfree c.heap ha data
    have hidle : hit (Phase.data (.idle : Phase R)) a = 0 := hit_of_ne ha.symm
    rw [hpend,hidle]
    omega

theorem Custody.next {c : Config Task σ R} (hc : Custody L c) {e : Event Task}
    (he : Enabled S c e) (hspares : SparesStep build c e) :
    Custody L (splitNext build S c e) := by
  cases e with
  | register task kmalloc ctx =>
    cases kmalloc with
    | none => exact hc
    | some b =>
      obtain ⟨⟨hcan,hfree⟩,-⟩ := he
      exact hc.add ctx task hcan (fun _ => (hc.intact.free hfree).1) (hc.intact.kmalloc hfree)
        fun a _ => by by_cases hab : a = b.addr <;> simp [registerProcess,Heap.kmalloc,hab]
  | fork parent child kmalloc kvmalloc ctx =>
    simp only [splitNext,trackForkWrapper,clientHookOnAttach_snd]
    split
    · obtain ⟨hcan,hnew⟩ := he.1.datum hc.intact.sound
      have hintact : (clientHookOnAttach build kmalloc kvmalloc c.heap).1.Intact := by
        refine hc.intact.attach build fun b hb => ⟨(he.1.fork hb).2,fun list hlist => ?_⟩
        subst hb
        exact he.1.list hlist
      exact hc.add ctx child hcan hnew hintact
        fun a ha => procData_clientHookOnAttach build c.heap kmalloc kvmalloc ha
    · exact hc
  | exit task ctx => exact hc.exitStep build task hspares
  | pmi task ctx => exact hc

theorem Custody.init {s : σ} (h : SplitStarts L s) :
    Custody L ⟨.empty,s,fun _ => .idle⟩ where
  valid := h.valid
  intact := Heap.intact_empty
  supported := Supported.const NULL
  bound a ha := by
    have hcount : count (pending L ⟨.empty,s,fun _ => .idle⟩) a = 0 := count_const ha
    rw [h.held ha,hcount]
    exact Nat.zero_le _

end Ledger
end Steps

end PmuMin.Client
