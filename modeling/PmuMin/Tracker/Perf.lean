import PmuMin.Tracker.Interface

/-! The tracker of `ptracker_perf.c`: the datum of a task is the private pointer of a dummy
event at the front of the task's `perf_event_list`. -/
namespace PmuMin.Perf
open Machine

/-- Who created an event: `perf_event_create_kernel_counter` or a `perf_event_open` of the
task itself. -/
inductive EventOwner
  | kernel
  | user
  deriving DecidableEq, Repr

/-- `struct perf_event`, as far as the tracker reads it. -/
structure PerfEvent where
  owner : EventOwner
  pmuPrivate : Word
  deriving DecidableEq, Repr

structure State (Task : Type) where
  perfEventList : Task → List PerfEvent
  pcpuRemovingEvent : ℕ → Bool

variable {Task : Type}

def trackerInit : State Task := ⟨fun _ => [],fun _ => false⟩

/-- `__get_perf_event`: `list_first_entry_or_null`. -/
def getPerfEvent (s : State Task) (task : Task) : Option PerfEvent :=
  (s.perfEventList task).head?

/-- `__get_task_event`: none while this CPU is in the middle of a removal. -/
def getTaskEvent (cpu : ℕ) (s : State Task) (task : Task) : Option PerfEvent :=
  if s.pcpuRemovingEvent cpu then none else getPerfEvent s task

def getTaskData (cpu : ℕ) (s : State Task) (task : Task) : Word :=
  match getTaskEvent cpu s task with
  | none => NULL
  | some event => event.pmuPrivate

section Functions
variable [DecidableEq Task]

/-- `create_task_data`; `created` is false where `perf_event_create_kernel_counter` returns an
error pointer. -/
def createTaskData (created : Bool) (s : State Task) (task : Option Task) (data : Word) :
    State Task × Bool :=
  match task with
  | none => (s,false)
  | some task =>
    if created then
      ({ s with
          perfEventList := Function.update s.perfEventList task
            (s.perfEventList task ++ [⟨.kernel,data⟩]) },true)
    else (s,false)

/-- `destroy_task_data`: the first event of the list is released and unlinked, with the removal
flag of this CPU up in between. -/
def destroyTaskData (cpu : ℕ) (s : State Task) (task : Task) : State Task :=
  let s := { s with pcpuRemovingEvent := Function.update s.pcpuRemovingEvent cpu true }
  let s :=
    match getPerfEvent s task with
    | none => s
    | some event =>
      -- `event->pmu_private = NULL`, then the release and the `list_del`
      let s := { s with
          perfEventList := Function.update s.perfEventList task
            ({ event with pmuPrivate := NULL } :: (s.perfEventList task).tail) }
      { s with
          perfEventList := Function.update s.perfEventList task (s.perfEventList task).tail }
  { s with pcpuRemovingEvent := Function.update s.pcpuRemovingEvent cpu false }

def trackerAdd (ctx : Context) (s : State Task) (task : Task) (data : Word) : State Task × ℤ :=
  match getTaskEvent ctx.cpu s task with
  | none => ((createTaskData ctx.alloc s (some task) data).1,0)
  | some _ => (s,0)

def trackerDel (ctx : Context) (s : State Task) (task : Task) : State Task × Word :=
  match getTaskEvent ctx.cpu s task with
  | none => (s,NULL)
  | some event => (destroyTaskData ctx.cpu s task,event.pmuPrivate)

def queryTracker (ctx : Context) (s : State Task) (task : Task) : Bool :=
  (getTaskEvent ctx.cpu s task).isSome

def queryDataTracker (ctx : Context) (s : State Task) (task : Task) : Word :=
  getTaskData ctx.cpu s task

def tracker : Tracker Task (State Task) where
  trackerAdd := trackerAdd
  trackerDel := trackerDel
  queryTracker := queryTracker
  queryDataTracker := queryDataTracker

end Functions

/-- No removal is under way on any CPU, as in every state between two calls. -/
def Idle (s : State Task) : Prop := ∀ cpu, s.pcpuRemovingEvent cpu = false

section Idle
variable {s : State Task} {task : Task}

theorem getTaskEvent_of_idle (h : Idle s) (cpu : ℕ) (task : Task) :
    getTaskEvent cpu s task = (s.perfEventList task).head? := by
  simp [getTaskEvent,getPerfEvent,h cpu]

theorem getTaskData_of_idle (h : Idle s) (cpu : ℕ) (task : Task) :
    getTaskData cpu s task = ((s.perfEventList task).head?.map PerfEvent.pmuPrivate).getD NULL := by
  rw [getTaskData,getTaskEvent_of_idle h]
  cases (s.perfEventList task).head? <;> rfl

variable [DecidableEq Task]

@[simp] theorem destroyTaskData_idle (h : Idle s) (cpu : ℕ) :
    Idle (destroyTaskData cpu s task) := by
  intro c
  by_cases hc : c = cpu
  · subst hc
    simp [destroyTaskData]
  · simp only [destroyTaskData,Function.update_of_ne hc]
    split <;> simp [Function.update_of_ne hc,h c]

theorem destroyTaskData_list (cpu : ℕ) :
    (destroyTaskData cpu s task).perfEventList =
      Function.update s.perfEventList task (s.perfEventList task).tail := by
  simp only [destroyTaskData,getPerfEvent]
  cases hl : s.perfEventList task with
  | nil =>
    rw [List.head?_nil,List.tail_nil,← hl]
    exact (Function.update_eq_self ..).symm
  | cons event rest => simp

/-- The two outcomes of `tracker_add`: the task already has an event, or creation decides. -/
theorem trackerAdd_of_cons (h : Idle s) (ctx : Context) {event : PerfEvent}
    {rest : List PerfEvent} (hl : s.perfEventList task = event :: rest) (data : Word) :
    trackerAdd ctx s task data = (s,0) := by
  simp [trackerAdd,getTaskEvent_of_idle h,hl]

theorem trackerAdd_of_nil (h : Idle s) (ctx : Context) (hl : s.perfEventList task = [])
    (data : Word) :
    trackerAdd ctx s task data =
      (if ctx.alloc then
        { s with perfEventList := Function.update s.perfEventList task [⟨.kernel,data⟩] }
      else s,0) := by
  cases ha : ctx.alloc <;> simp [trackerAdd,getTaskEvent_of_idle h,hl,createTaskData,ha]

theorem trackerDel_of_nil (h : Idle s) (ctx : Context) (hl : s.perfEventList task = []) :
    trackerDel ctx s task = (s,NULL) := by
  simp [trackerDel,getTaskEvent_of_idle h,hl]

theorem trackerDel_of_cons (h : Idle s) (ctx : Context) {event : PerfEvent}
    {rest : List PerfEvent} (hl : s.perfEventList task = event :: rest) :
    trackerDel ctx s task = (destroyTaskData ctx.cpu s task,event.pmuPrivate) := by
  simp [trackerDel,getTaskEvent_of_idle h,hl]

end Idle
end PmuMin.Perf
