import PmuMin.Tracker.Hash
import PmuMin.Tracker.Stack
import PmuMin.Tracker.Perf
import PmuMin.Library.Update

/-! The three builds are interchangeable where every task is added at most once at a time: each
of them then simulates the finite map from tasks to data. -/
namespace PmuMin
open Machine

variable {Task : Type}

namespace Hash
variable (hash : Pid → Bucket) (pid : Task → Pid)

/-- The stack of each task's pid holds at most the task's own datum. -/
def Simulates (s : State) (m : Task → Option Word) : Prop :=
  ∃ st, Represents hash s st ∧ ∀ task, st (pid task) = (m task).toList

theorem simulates_init : Simulates hash pid trackerInit (fun _ => none) :=
  ⟨fun _ => [],represents_trackerInit hash,fun _ => rfl⟩

variable [DecidableEq Task]

/-- With distinct pids an update of one pid's stack is an update of one task's entry. -/
lemma update_pid (hpid : Function.Injective pid) {st : Pid → List Word} {m : Task → Option Word}
    {task : Task} {data : List Word} {entry : Option Word} (hdata : data = entry.toList)
    (hst : ∀ t, st (pid t) = (m t).toList) (t : Task) :
    Function.update st (pid task) data (pid t) = (Function.update m task entry t).toList := by
  rw [Function.update_apply_of_injective st hpid]
  exact Update.rel (R := fun _ data (entry : Option Word) => data = entry.toList) hdata hst t

/-- Stacks that are never pushed twice are a finite map. -/
lemma lifo_step_finiteMap (hpid : Function.Injective pid) {st : Pid → List Word}
    {m : Task → Option Word} (hst : ∀ task, st (pid task) = (m task).toList) (c : Call Task)
    (hc : Disciplined m c) :
    (∀ task, ((Tracker.lifo pid).step st c).1 (pid task) =
        (((Tracker.finiteMap Task).step m c).1 task).toList) ∧
      ((Tracker.lifo pid).step st c).2 = ((Tracker.finiteMap Task).step m c).2 := by
  obtain ⟨ctx,op⟩ := c
  obtain ⟨halloc,-,hop⟩ := hc
  cases op with
  | add task data =>
    obtain ⟨hnone,-⟩ := hop
    simp only [Tracker.step,Tracker.lifo,Tracker.finiteMap,if_pos halloc]
    refine ⟨update_pid pid hpid ?_ hst,trivial⟩
    rw [hst,hnone]
    rfl
  | del task =>
    simp only [Tracker.step,Tracker.lifo,Tracker.finiteMap,hst task]
    refine ⟨update_pid pid hpid ?_ hst,by cases m task <;> rfl⟩
    cases m task <;> rfl
  | query task =>
    simp only [Tracker.step,Tracker.lifo,Tracker.finiteMap,hst task]
    exact ⟨hst,by cases m task <;> rfl⟩
  | queryData task =>
    simp only [Tracker.step,Tracker.lifo,Tracker.finiteMap,hst task]
    exact ⟨hst,by cases m task <;> rfl⟩

theorem simulates_step (hpid : Function.Injective pid) {s : State} {m : Task → Option Word}
    (h : Simulates hash pid s m) (c : Call Task) (hc : Disciplined m c) :
    Simulates hash pid ((tracker hash pid).step s c).1 ((Tracker.finiteMap Task).step m c).1 ∧
      ((tracker hash pid).step s c).2 = ((Tracker.finiteMap Task).step m c).2 := by
  obtain ⟨st,hR,hst⟩ := h
  obtain ⟨hR',hout⟩ := represents_step hash pid hR c hc.2.1
  obtain ⟨hst',hout'⟩ := lifo_step_finiteMap pid hpid hst c hc
  exact ⟨⟨_,hR',hst'⟩,hout.trans hout'⟩

end Hash

namespace Stack

/-- The slot word of an entry of the map. -/
def slotWord : Option Word → Word
  | none => 0
  | some data => magicEntry data

/-- Every slot holds zero or the encoding of the task's own canonical datum. -/
structure Simulates (s : State Task) (m : Task → Option Word) : Prop where
  slot : ∀ task, s task = some (slotWord (m task))
  canonical : ∀ task data, m task = some data → Canonical data

theorem simulates_init : Simulates (fun _ : Task => some 0) (fun _ => none) where
  slot _ := rfl
  canonical _ _ h := by cases h

lemma queryTracker_of_simulates {s : State Task} {m : Task → Option Word} (h : Simulates s m)
    (task : Task) : queryTracker s task = (m task).isSome := by
  rw [queryTracker_eq (h.slot task)]
  cases m task with
  | none => exact accepts_zero
  | some data => exact accepts_magicEntry data

lemma queryDataTracker_of_simulates {s : State Task} {m : Task → Option Word}
    (h : Simulates s m) (task : Task) : queryDataTracker s task = (m task).getD NULL := by
  rw [queryDataTracker_eq (h.slot task)]
  cases hm : m task with
  | none => simp [slotWord]
  | some data =>
    rw [slotWord,if_pos (accepts_magicEntry data),buildPtr_magicEntry]
    exact (buildPtr_eq_self_iff data).mpr (h.canonical task data hm)

theorem simulates_step [DecidableEq Task] {s : State Task} {m : Task → Option Word}
    (h : Simulates s m) (c : Call Task) (hc : Disciplined m c) :
    Simulates (tracker.step s c).1 ((Tracker.finiteMap Task).step m c).1 ∧
      (tracker.step s c).2 = ((Tracker.finiteMap Task).step m c).2 := by
  obtain ⟨ctx,op⟩ := c
  obtain ⟨-,-,hop⟩ := hc
  cases op with
  | add task data =>
    obtain ⟨-,hcan⟩ := hop
    simp only [Tracker.step,tracker,Tracker.finiteMap,trackerAdd_eq (h.slot task)]
    refine ⟨⟨Update.rel (R := fun _ w d => w = some (slotWord d)) rfl h.slot,
      Update.all (P := fun _ o => ∀ d, o = some d → Canonical d) ?_ h.canonical⟩,trivial⟩
    intro d hd
    exact Option.some.inj hd ▸ hcan
  | del task =>
    have hdata := queryDataTracker_of_simulates h task
    rw [queryDataTracker_eq (h.slot task)] at hdata
    simp only [Tracker.step,tracker,Tracker.finiteMap,trackerDel_eq (h.slot task)]
    refine ⟨⟨?_,Update.all (P := fun _ o => ∀ d, o = some d → Canonical d) (by simp) h.canonical⟩,?_⟩
    · cases hm : m task with
      | none =>
        have hfree : accepts (slotWord none) = false := accepts_zero
        rw [hfree,← hm,Function.update_eq_self]
        exact h.slot
      | some data =>
        rw [slotWord,accepts_magicEntry,if_pos rfl]
        exact Update.rel (R := fun _ w d => w = some (slotWord d)) rfl h.slot
    · rw [← hdata]
      split <;> rfl
  | query task =>
    simp only [Tracker.step,tracker,Tracker.finiteMap]
    exact ⟨h,by rw [queryTracker_of_simulates h]⟩
  | queryData task =>
    simp only [Tracker.step,tracker,Tracker.finiteMap]
    exact ⟨h,by rw [queryDataTracker_of_simulates h]⟩

end Stack

namespace Perf

/-- Every task has at most one event, which holds the task's datum. -/
structure Simulates (s : State Task) (m : Task → Option Word) : Prop where
  idle : Idle s
  list : ∀ task, s.perfEventList task = ((m task).map fun data => ⟨.kernel,data⟩).toList

lemma update_list [DecidableEq Task] {s : State Task} {m : Task → Option Word}
    (h : Simulates s m) {task : Task} {l : List PerfEvent} {entry : Option Word}
    (hl : l = (entry.map fun data => ⟨.kernel,data⟩).toList) (t : Task) :
    Function.update s.perfEventList task l t =
      ((Function.update m task entry t).map fun data => ⟨.kernel,data⟩).toList :=
  Update.rel (R := fun _ l (o : Option Word) => l = (o.map fun data => PerfEvent.mk .kernel data).toList)
    hl h.list t

theorem simulates_init : Simulates (trackerInit : State Task) (fun _ => none) where
  idle _ := rfl
  list _ := rfl

theorem simulates_step [DecidableEq Task] {s : State Task} {m : Task → Option Word}
    (h : Simulates s m) (c : Call Task) (hc : Disciplined m c) :
    Simulates (tracker.step s c).1 ((Tracker.finiteMap Task).step m c).1 ∧
      (tracker.step s c).2 = ((Tracker.finiteMap Task).step m c).2 := by
  obtain ⟨ctx,op⟩ := c
  obtain ⟨halloc,-,hop⟩ := hc
  cases op with
  | add task data =>
    obtain ⟨hnone,-⟩ := hop
    have hl : s.perfEventList task = [] := by rw [h.list,hnone]; rfl
    simp only [Tracker.step,tracker,Tracker.finiteMap,trackerAdd_of_nil h.idle ctx hl,
      if_pos halloc]
    exact ⟨⟨h.idle,update_list h rfl⟩,trivial⟩
  | del task =>
    simp only [Tracker.step,tracker,Tracker.finiteMap]
    cases hm : m task with
    | none =>
      have hl : s.perfEventList task = [] := by rw [h.list,hm]; rfl
      rw [trackerDel_of_nil h.idle ctx hl,← hm,Function.update_eq_self,hm]
      exact ⟨h,rfl⟩
    | some data =>
      have hl : s.perfEventList task = [⟨.kernel,data⟩] := by rw [h.list,hm]; rfl
      rw [trackerDel_of_cons h.idle ctx hl]
      refine ⟨⟨destroyTaskData_idle h.idle ctx.cpu,?_⟩,rfl⟩
      rw [destroyTaskData_list,hl]
      exact update_list h rfl
  | query task =>
    simp only [Tracker.step,tracker,Tracker.finiteMap,queryTracker,
      getTaskEvent_of_idle h.idle,h.list]
    exact ⟨h,by cases m task <;> rfl⟩
  | queryData task =>
    simp only [Tracker.step,tracker,Tracker.finiteMap,queryDataTracker,
      getTaskData_of_idle h.idle,h.list]
    exact ⟨h,by cases m task <;> rfl⟩

end Perf

/-- On a disciplined run the three builds return, call by call, what a finite map from tasks to
data returns. -/
theorem builds_interchangeable [DecidableEq Task] (hash : Hash.Pid → Hash.Bucket) (pid : Task → Hash.Pid)
    (hpid : Function.Injective pid) (calls : List (Call Task))
    (h : Admits (Tracker.finiteMap Task).next Disciplined (fun _ => none) calls) :
    let results := outputs (Tracker.finiteMap Task).step (fun _ => none) calls
    outputs (Hash.tracker hash pid).step Hash.trackerInit calls = results ∧
      outputs Stack.tracker.step (fun _ => some 0) calls = results ∧
      outputs Perf.tracker.step Perf.trackerInit calls = results :=
  ⟨(simulation (R := Hash.Simulates hash pid)
      (fun _ _ c hR hc => Hash.simulates_step hash pid hpid hR c hc)
      (Hash.simulates_init hash pid) h).2,
    (simulation (R := Stack.Simulates) (fun _ _ c hR hc => Stack.simulates_step hR c hc)
      Stack.simulates_init h).2,
    (simulation (R := Perf.Simulates) (fun _ _ c hR hc => Perf.simulates_step hR c hc)
      Perf.simulates_init h).2⟩

/-- A task tracked with a NULL datum, a deletion of an absent task and a second life of a task,
with both pids in one bucket. -/
theorem builds_interchangeable_null_datum :
    let calls : List (Call (Fin 2)) := [.add 0 0,.query 0,.queryData 0,.del 1,.add 1 0x7f0000001000,
      .del 0,.query 0,.add 0 0xffff888000000060,.del 0,.queryData 1].map (⟨⟨0,true,true⟩,·⟩)
    outputs (Hash.tracker (fun _ => 3) (fun t : Fin 2 => t.val)).step Hash.trackerInit calls =
        [.code 0,.flag true,.pointer 0,.pointer 0,.code 0,.pointer 0,.flag false,.code 0,
          .pointer 0xffff888000000060,.pointer 0x7f0000001000] ∧
      outputs Stack.tracker.step (fun _ => some 0) calls =
        outputs Perf.tracker.step Perf.trackerInit calls := by
  intro calls
  have h := builds_interchangeable (fun _ => 3) (fun t : Fin 2 => (t.val : ℤ))
    (fun a b hab => Fin.ext (Int.ofNat.inj hab)) calls (by decide)
  exact ⟨h.1.trans (by decide),h.2.1.trans h.2.2.symm⟩

end PmuMin
