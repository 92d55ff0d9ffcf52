import PmuMin.Tracker.Hash
import PmuMin.Tracker.Stack
import PmuMin.Tracker.Perf
import PmuMin.Library.Occurrences
import PmuMin.Library.Update

/-! How often a tracker holds a datum, and how its calls move data in and out. The three builds
keep the same ledger up to what an insertion stores and what it displaces. -/
namespace PmuMin
open Occurrences

/-- The data of a tracker, counted. `stores` tells whether `tracker_add` keeps the datum it is
given, `displaced` is the datum it drops to do so, and `first` the one `tracker_del` takes. -/
structure Ledger {Task σ : Type} (T : Tracker Task σ) where
  Valid : σ → Prop
  held : σ → Word → ℕ
  stores : Context → σ → Task → Bool
  displaced : σ → Task → Word
  first : σ → Task → Word
  valid_add : ∀ {s}, Valid s → ∀ ctx task data, Valid (T.trackerAdd ctx s task data).1
  valid_del : ∀ {s}, Valid s → ∀ ctx task, Valid (T.trackerDel ctx s task).1
  held_add : ∀ {s}, Valid s → ∀ ctx task {data a}, Canonical data → a ≠ NULL →
    held (T.trackerAdd ctx s task data).1 a + hit (displaced s task) a =
      held s a + if stores ctx s task then hit data a else 0
  del_snd : ∀ {s}, Valid s → ∀ ctx task, (T.trackerDel ctx s task).2 = first s task
  held_del : ∀ {s}, Valid s → ∀ ctx task {a}, a ≠ NULL →
    held (T.trackerDel ctx s task).1 a + hit (first s task) a = held s a
  query_data : ∀ {s}, Valid s → ∀ ctx task,
    T.queryDataTracker ctx s task = NULL ∨ T.queryDataTracker ctx s task = first s task

/-- A datum that `tracker_del` would take is held. -/
theorem Ledger.held_first {Task σ : Type} {T : Tracker Task σ} (L : Ledger T) {s : σ}
    (hs : L.Valid s) {task : Task} (h : L.first s task ≠ NULL) :
    0 < L.held s (L.first s task) := by
  have hdel := L.held_del hs ⟨0,true,true⟩ task h
  rw [hit_self] at hdel
  omega

/-- Whatever an insertion does, it adds its own datum at most. -/
theorem Ledger.held_add_le {Task σ : Type} {T : Tracker Task σ} (L : Ledger T) {s : σ}
    (hs : L.Valid s) (ctx : Context) (task : Task) {data a : Word} (hdata : Canonical data)
    (ha : a ≠ NULL) : L.held (T.trackerAdd ctx s task data).1 a ≤ L.held s a + hit data a := by
  have hadd := L.held_add hs ctx task hdata ha
  split at hadd <;> omega

namespace Hash
variable {Task : Type} (hash : Pid → Bucket) (pid : Task → Pid)

/-- The number of nodes that carry the datum. -/
def held (s : State) (a : Word) : ℕ :=
  ChainedTable.total (fun n : TpNode => hit n.data a) s.trackedMap

theorem held_trackerInit (a : Word) : held trackerInit a = 0 := by
  simp [held,ChainedTable.total,trackerInit]

lemma held_pop (s : State) {task : Task} {cur : TpNode} {rest : List TpNode}
    (hs : nodesOf hash s (pid task) = cur :: rest) (n : BitVec 32) (a : Word) :
    held ⟨ChainedTable.pop hash TpNode.id s.trackedMap (pid task),n⟩ a + hit cur.data a =
      held s a := by
  have h := ChainedTable.total_pop hash TpNode.id (fun n : TpNode => hit n.data a) s.trackedMap
    (pid task)
  rw [show ChainedTable.stack hash TpNode.id s.trackedMap (pid task) = cur :: rest from hs] at h
  exact h

theorem held_trackerAdd (ctx : Context) (s : State) (task : Task) (data : Word) {a : Word}
    (ha : a ≠ NULL) :
    held (trackerAdd hash pid ctx s task data).1 a + hit NULL a =
      held s a + if ctx.alloc then hit data a else 0 := by
  rw [hit_of_ne ha.symm,Nat.add_zero]
  cases hctx : ctx.alloc with
  | false => simp [trackerAdd_of_not_alloc hash pid ctx hctx]
  | true =>
    rw [trackerAdd_of_alloc hash pid ctx hctx]
    exact ChainedTable.total_push hash TpNode.id (fun n : TpNode => hit n.data a) s.trackedMap
      ⟨pid task,data⟩

/-- The datum on top of the stack of the task's pid. -/
def first (s : State) (task : Task) : Word := (dataOf hash s (pid task)).headD NULL

theorem trackerDel_snd (s : State) (task : Task) :
    (trackerDel hash pid s task).2 = first hash pid s task := trackerDel_data hash pid s task

theorem held_trackerDel (s : State) (task : Task) {a : Word} (ha : a ≠ NULL) :
    held (trackerDel hash pid s task).1 a + hit (first hash pid s task) a = held s a := by
  rw [← trackerDel_snd]
  rcases trackerDel_cases hash pid s task with ⟨-,hd⟩ | ⟨cur,rest,hs,hd⟩
  · rw [hd,hit_of_ne ha.symm,Nat.add_zero]
  · rw [hd]
    exact held_pop hash pid s hs _ a

theorem queryDataTracker_cases (ctx : Context) (s : State) (task : Task) :
    queryDataTracker hash pid ctx s task = NULL ∨
      queryDataTracker hash pid ctx s task = first hash pid s task := by
  cases hlock : ctx.trylock with
  | false => exact .inl (if_neg (by simp [hlock]))
  | true => exact .inr (queryDataTracker_eq hash pid ctx hlock s task)

/-- An insertion stores its datum if the node can be allocated, and displaces nothing. -/
def ledger : Ledger (tracker hash pid) where
  Valid _ := True
  held := held
  stores ctx _ _ := ctx.alloc
  displaced _ _ := NULL
  first := first hash pid
  valid_add _ _ _ _ := trivial
  valid_del _ _ _ := trivial
  held_add _ ctx task _ _ _ ha := held_trackerAdd hash pid ctx _ task _ ha
  del_snd {s} _ _ task := trackerDel_snd hash pid s task
  held_del {s} _ _ task _ ha := held_trackerDel hash pid s task ha
  query_data {s} _ ctx task := queryDataTracker_cases hash pid ctx s task

end Hash

namespace Stack
variable {Task : Type}

theorem getPatchedData_eq {s : State Task} {task : Task} {entry : Word}
    (h : s task = some entry) :
    getPatchedData s task = if accepts entry then buildPtr entry else NULL :=
  queryDataTracker_eq h

theorem getPatchedData_of_none {s : State Task} {task : Task} (h : s task = none) :
    getPatchedData s task = NULL := by
  rw [getPatchedData,getMagicEntry_of_none h]

variable [DecidableEq Task]

lemma getPatchedData_update (s : State Task) (task : Task) (entry : Word) :
    getPatchedData (Function.update s task (some entry)) =
      Function.update (getPatchedData s) task (if accepts entry then buildPtr entry else NULL) := by
  refine Function.eq_update_iff.mpr ⟨getPatchedData_eq (Function.update_self ..),fun t ht => ?_⟩
  simp only [getPatchedData,getMagicEntry,Function.update_of_ne ht]

theorem getPatchedData_trackerAdd {s : State Task} {task : Task} {entry data : Word}
    (h : s task = some entry) (hdata : Canonical data) :
    getPatchedData (trackerAdd s task data).1 =
      Function.update (getPatchedData s) task data := by
  rw [trackerAdd_eq h,getPatchedData_update,if_pos (accepts_magicEntry data),buildPtr_magicEntry,
    (buildPtr_eq_self_iff data).mpr hdata]

theorem trackerDel_snd (s : State Task) (task : Task) :
    (trackerDel s task).2 = getPatchedData s task := by
  cases h : s task with
  | none => rw [trackerDel_of_none h,getPatchedData_of_none h]
  | some entry =>
    rw [trackerDel_eq h,getPatchedData_eq h]
    split <;> rfl

theorem getPatchedData_trackerDel (s : State Task) (task : Task) :
    getPatchedData (trackerDel s task).1 = Function.update (getPatchedData s) task NULL := by
  cases h : s task with
  | none =>
    rw [trackerDel_of_none h,← getPatchedData_of_none h]
    exact (Function.update_eq_self ..).symm
  | some entry =>
    rw [trackerDel_eq h]
    cases ha : accepts entry with
    | true => rw [if_pos rfl,getPatchedData_update]; simp
    | false =>
      have hnull : getPatchedData s task = NULL := by rw [getPatchedData_eq h,ha]; rfl
      rw [← hnull]
      exact (Function.update_eq_self ..).symm

/-- The number of tasks whose slot decodes to the datum. -/
noncomputable def held (s : State Task) : Word → ℕ := count (getPatchedData s)

theorem supported_trackerAdd {s : State Task} (hs : Supported NULL (getPatchedData s))
    (task : Task) (data : Word) : Supported NULL (getPatchedData (trackerAdd s task data).1) := by
  cases h : s task with
  | none => rwa [trackerAdd_of_none h]
  | some entry =>
    rw [trackerAdd_eq h,getPatchedData_update]
    exact hs.update _ _

theorem held_trackerAdd {s : State Task} (hs : Supported NULL (getPatchedData s)) (task : Task)
    {data a : Word} (hdata : Canonical data) (ha : a ≠ NULL) :
    held (trackerAdd s task data).1 a + hit (getPatchedData s task) a =
      held s a + if (s task).isSome then hit data a else 0 := by
  cases h : s task with
  | none => simp [trackerAdd_of_none h,getPatchedData_of_none h,hit_of_ne ha.symm]
  | some entry =>
    rw [held,getPatchedData_trackerAdd h hdata]
    exact count_update hs ha task data

theorem held_trackerDel {s : State Task} (hs : Supported NULL (getPatchedData s)) (task : Task)
    {a : Word} (ha : a ≠ NULL) :
    held (trackerDel s task).1 a + hit (getPatchedData s task) a = held s a := by
  rw [held,getPatchedData_trackerDel,count_update hs ha,hit_of_ne ha.symm]
  rfl

/-- An insertion stores its datum if the task has a stack, and displaces what the slot held. -/
noncomputable def ledger : Ledger (tracker : Tracker Task (State Task)) where
  Valid s := Supported NULL (getPatchedData s)
  held := held
  stores _ s task := (s task).isSome
  displaced := getPatchedData
  first := getPatchedData
  valid_add hs _ := supported_trackerAdd hs
  valid_del {s} hs _ task :=
    (getPatchedData_trackerDel s task).symm ▸ hs.update task NULL
  held_add hs _ task _ _ hdata ha := held_trackerAdd hs task hdata ha
  del_snd {s} _ _ task := trackerDel_snd s task
  held_del hs _ task _ ha := held_trackerDel hs task ha
  query_data _ _ _ := .inr rfl

end Stack

namespace Perf
variable {Task : Type}

/-- The private pointer of each event, task by task and position by position. -/
def privateData (s : State Task) (p : Task × ℕ) : Word :=
  ((s.perfEventList p.1)[p.2]?.map PerfEvent.pmuPrivate).getD NULL

/-- The number of events that carry the datum. -/
noncomputable def held (s : State Task) : Word → ℕ := count (privateData s)

/-- Between two calls no removal is under way and each task has at most one event. -/
structure Valid (s : State Task) : Prop where
  idle : Idle s
  single : ∀ task, (s.perfEventList task).length ≤ 1
  supported : Supported NULL (privateData s)

variable [DecidableEq Task]

/-- The datum at the front of an event list, which `__get_task_event` looks at. -/
def frontData (events : List PerfEvent) : Word := (events.head?.map PerfEvent.pmuPrivate).getD NULL

lemma privateData_update {s : State Task} {task : Task}
    (h : (s.perfEventList task).length ≤ 1) {events : List PerfEvent} (hl : events.length ≤ 1)
    (flag : ℕ → Bool) :
    privateData ⟨Function.update s.perfEventList task events,flag⟩ =
      Function.update (privateData s) (task,0)
        (frontData events) := by
  funext ⟨t,i⟩
  by_cases ht : t = task
  · subst ht
    cases i with
    | zero => simp [privateData,frontData,List.head?_eq_getElem?]
    | succ i =>
      have hold : (s.perfEventList t)[i+1]? = none := List.getElem?_eq_none (by omega)
      have hnew : events[i+1]? = none := List.getElem?_eq_none (by omega)
      simp [privateData,hold,hnew]
  · simp [privateData,ht]

lemma held_update {s : State Task} (hs : Valid s) (task : Task) (events : List PerfEvent)
    (hl : events.length ≤ 1) (flag : ℕ → Bool) {a : Word} (ha : a ≠ NULL) :
    held ⟨Function.update s.perfEventList task events,flag⟩ a +
        hit (frontData (s.perfEventList task)) a = held s a + hit (frontData events) a := by
  have hfront : privateData s (task,0) = frontData (s.perfEventList task) := by
    rw [privateData,frontData,List.head?_eq_getElem?]
  rw [held,privateData_update (hs.single task) hl,← hfront]
  exact count_update hs.supported ha (task,0) (frontData events)

lemma Valid.update {s : State Task} (h : Valid s) (task : Task) {events : List PerfEvent}
    (hl : events.length ≤ 1) {flag : ℕ → Bool} (hflag : ∀ cpu, flag cpu = false) :
    Valid ⟨Function.update s.perfEventList task events,flag⟩ where
  idle := hflag
  single := Update.all (P := fun _ l => List.length l ≤ 1) hl h.single
  supported := privateData_update (h.single task) hl flag ▸ h.supported.update _ _

/-- An insertion stores its datum if the task has no event and one can be created. -/
def stores (ctx : Context) (s : State Task) (task : Task) : Bool :=
  (s.perfEventList task).isEmpty && ctx.alloc

theorem valid_trackerAdd {s : State Task} (hs : Valid s) (ctx : Context) (task : Task)
    (data : Word) : Valid (trackerAdd ctx s task data).1 := by
  cases h : s.perfEventList task with
  | cons event rest => rwa [trackerAdd_of_cons hs.idle ctx h]
  | nil =>
    rw [trackerAdd_of_nil hs.idle ctx h]
    cases ctx.alloc
    · exact hs
    · exact hs.update task (by simp) hs.idle

theorem held_trackerAdd {s : State Task} (hs : Valid s) (ctx : Context) (task : Task)
    {data a : Word} (ha : a ≠ NULL) :
    held (trackerAdd ctx s task data).1 a =
      held s a + if stores ctx s task then hit data a else 0 := by
  cases h : s.perfEventList task with
  | cons event rest => simp [trackerAdd_of_cons hs.idle ctx h,stores,h]
  | nil =>
    rw [trackerAdd_of_nil hs.idle ctx h,stores,h]
    cases ctx.alloc with
    | false => simp
    | true =>
      have hcount := held_update hs task [⟨.kernel,data⟩] (by simp)
        s.pcpuRemovingEvent ha
      simpa [h,frontData,hit_of_ne ha.symm] using hcount

theorem trackerDel_cases {s : State Task} (hs : Valid s) (ctx : Context) (task : Task) :
    (s.perfEventList task = [] ∧ trackerDel ctx s task = (s,NULL)) ∨
    ∃ event flag, s.perfEventList task = [event] ∧ (∀ cpu, flag cpu = false) ∧
      trackerDel ctx s task =
        (⟨Function.update s.perfEventList task [],flag⟩,event.pmuPrivate) := by
  cases h : s.perfEventList task with
  | nil => exact .inl ⟨rfl,trackerDel_of_nil hs.idle ctx h⟩
  | cons event rest =>
    have hrest : rest = [] := by
      have hlen := hs.single task
      rw [h,List.length_cons] at hlen
      exact List.length_eq_zero_iff.mp (by omega)
    subst hrest
    refine .inr ⟨event,(destroyTaskData ctx.cpu s task).pcpuRemovingEvent,rfl,
      destroyTaskData_idle hs.idle ctx.cpu,?_⟩
    have hlist : (destroyTaskData ctx.cpu s task).perfEventList = _ := destroyTaskData_list ctx.cpu
    rw [h,List.tail_cons] at hlist
    rw [trackerDel_of_cons hs.idle ctx h,← hlist]

theorem trackerDel_snd {s : State Task} (hs : Valid s) (ctx : Context) (task : Task) :
    (trackerDel ctx s task).2 = frontData (s.perfEventList task) := by
  rcases trackerDel_cases hs ctx task with ⟨h,hd⟩ | ⟨event,flag,h,-,hd⟩ <;> rw [hd,h] <;> rfl

theorem held_trackerDel {s : State Task} (hs : Valid s) (ctx : Context) (task : Task) {a : Word}
    (ha : a ≠ NULL) :
    held (trackerDel ctx s task).1 a + hit (frontData (s.perfEventList task)) a = held s a := by
  rw [← trackerDel_snd hs ctx]
  rcases trackerDel_cases hs ctx task with ⟨-,hd⟩ | ⟨event,flag,h,-,hd⟩
  · rw [hd,hit_of_ne ha.symm,Nat.add_zero]
  · rw [hd]
    have hcount := held_update hs task [] (by simp) flag ha
    simpa [h,frontData,hit_of_ne ha.symm] using hcount

theorem valid_trackerDel {s : State Task} (hs : Valid s) (ctx : Context) (task : Task) :
    Valid (trackerDel ctx s task).1 := by
  rcases trackerDel_cases hs ctx task with ⟨-,hd⟩ | ⟨event,flag,-,hflag,hd⟩
  · rwa [hd]
  · rw [hd]
    exact hs.update task (by simp) hflag

noncomputable def ledger : Ledger (tracker : Tracker Task (State Task)) where
  Valid := Valid
  held := held
  stores := stores
  displaced _ _ := NULL
  first s task := frontData (s.perfEventList task)
  valid_add hs := valid_trackerAdd hs
  valid_del hs := valid_trackerDel hs
  held_add hs ctx task _ _ _ ha :=
    (congrArg _ (hit_of_ne ha.symm)).trans (held_trackerAdd hs ctx task ha)
  del_snd hs := trackerDel_snd hs
  held_del hs ctx task _ ha := held_trackerDel hs ctx task ha
  query_data hs ctx task := .inr (getTaskData_of_idle hs.idle ctx.cpu task)

end Perf

/-- A stack slot that was never patched is zero. -/
def Stack.Unpatched {Task : Type} (s : Stack.State Task) : Prop :=
  ∀ task entry, s task = some entry → entry = 0

lemma Stack.getPatchedData_of_unpatched {Task : Type} {s : Stack.State Task}
    (hs : Stack.Unpatched s) : Stack.getPatchedData s = fun _ => NULL := by
  funext task
  cases h : s task with
  | none => exact Stack.getPatchedData_of_none h
  | some entry =>
    rw [Stack.getPatchedData_eq h,hs task entry h]
    rfl

/-- The builds of the Makefile's `TRACKER`, each in a state it starts in. -/
inductive Starts {Task : Type} [DecidableEq Task] :
    {σ : Type} → {T : Tracker Task σ} → Ledger T → σ → Prop
  | hash (hash : Hash.Pid → Hash.Bucket) (pid : Task → Hash.Pid) :
    Starts (Hash.ledger hash pid) Hash.trackerInit
  | stack {s : Stack.State Task} (hs : Stack.Unpatched s) : Starts Stack.ledger s
  | perf : Starts Perf.ledger Perf.trackerInit

section Starts
variable {Task σ : Type} [DecidableEq Task] {T : Tracker Task σ} {L : Ledger T} {s : σ}

theorem Starts.valid (h : Starts L s) : L.Valid s := by
  cases h with
  | hash => trivial
  | stack hs =>
    change Supported NULL (Stack.getPatchedData _)
    rw [Stack.getPatchedData_of_unpatched hs]
    exact Supported.const NULL
  | perf => exact ⟨fun _ => rfl,fun _ => Nat.zero_le 1,Supported.const NULL⟩

theorem Starts.held (h : Starts L s) {a : Word} (ha : a ≠ NULL) : L.held s a = 0 := by
  cases h with
  | hash => exact Hash.held_trackerInit a
  | stack hs =>
    change count (Stack.getPatchedData _) a = 0
    rw [Stack.getPatchedData_of_unpatched hs,count_const ha]
  | perf => exact count_const ha

end Starts
end PmuMin
