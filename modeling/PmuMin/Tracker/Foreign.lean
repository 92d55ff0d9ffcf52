import PmuMin.Tracker.Perf
import PmuMin.Library.Update

/-! The perf tracker next to the events that the tasks open themselves. Both are appended to the
task's `perf_event_list`, and the tracker takes whatever is at the front for its own. -/
namespace PmuMin.Perf
open Machine

variable {Task : Type}

/-- The event lists with their history: the datum with which each task was added, if it was not
deleted since; a repeated addition does not count. -/
structure Shared (Task : Type) where
  state : State Task
  added : Task → Option Word

/-- A call of the tracker, a `perf_event_open` of the task and the closing of the event at a
position of its list. -/
inductive Use (Task : Type)
  | call (c : Call Task)
  | userOpen (task : Task) (pmuPrivate : Word)
  | userClose (task : Task) (i : ℕ)
  deriving DecidableEq, Repr

/-- Event creation succeeds. -/
def Use.Creates : Use Task → Prop
  | .call c => c.ctx.alloc = true
  | _ => True

instance : DecidablePred (@Use.Creates Task)
  | .call c => inferInstanceAs (Decidable (c.ctx.alloc = true))
  | .userOpen .. | .userClose .. => inferInstanceAs (Decidable True)

/-- The events of a list that the tracker did not create. -/
def foreign (l : List PerfEvent) : List PerfEvent := l.filter fun event => event.owner = .user

namespace Shared
variable [DecidableEq Task]

def init : Shared Task := ⟨trackerInit,fun _ => none⟩

def step (p : Shared Task) : Use Task → Shared Task
  | .call c =>
    { state := tracker.next p.state c
      added :=
        match c.op with
        | .add task data =>
          if (p.added task).isNone then Function.update p.added task (some data) else p.added
        | .del task => Function.update p.added task none
        | _ => p.added }
  | .userOpen task pmuPrivate =>
    let l := p.state.perfEventList task
    { p with state := { p.state with
        perfEventList := Function.update p.state.perfEventList task (l ++ [⟨.user,pmuPrivate⟩]) } }
  | .userClose task i =>
    let l := p.state.perfEventList task
    if l[i]?.map PerfEvent.owner = some .user then
      { p with state := { p.state with
          perfEventList := Function.update p.state.perfEventList task (l.eraseIdx i) } }
    else p

/-- Whichever call comes next, on any task: the queries answer by the additions, a removal gives
the datum back, and it touches no foreign event. -/
def Faithful (p : Shared Task) : Prop :=
  ∀ ctx task, queryTracker ctx p.state task = (p.added task).isSome ∧
    (∀ data, p.added task = some data →
      queryDataTracker ctx p.state task = data ∧ (trackerDel ctx p.state task).2 = data) ∧
    ∀ t, foreign ((trackerDel ctx p.state task).1.perfEventList t) =
      foreign (p.state.perfEventList t)

omit [DecidableEq Task] in
/-- A task opens an event only while it is tracked, and has none of its own open when it is
deleted. -/
def OwnFirst (p : Shared Task) : Use Task → Prop
  | .call ⟨_,.del task⟩ => foreign (p.state.perfEventList task) = []
  | .userOpen task _ => (p.added task).isSome = true
  | _ => True

end Shared

/-- The list of a task: empty, or the tracker's event in front of foreign ones. -/
def Fronted : Option Word → List PerfEvent → Prop
  | none,l => l = []
  | some data,l => ∃ rest, l = ⟨.kernel,data⟩ :: rest ∧ ∀ event ∈ rest, event.owner = .user

namespace Shared

structure Inv (p : Shared Task) : Prop where
  idle : Idle p.state
  fronted : ∀ task, Fronted (p.added task) (p.state.perfEventList task)

theorem inv_init : Inv (init : Shared Task) where
  idle _ := rfl
  fronted _ := rfl

lemma foreign_cons (data : Word) (rest : List PerfEvent) :
    foreign (⟨.kernel,data⟩ :: rest) = foreign rest := rfl

lemma foreign_of_user {rest : List PerfEvent} (h : ∀ event ∈ rest, event.owner = .user) :
    foreign rest = rest :=
  List.filter_eq_self.mpr fun event he => decide_eq_true (h event he)

variable [DecidableEq Task]

theorem Inv.faithful {p : Shared Task} (h : Inv p) : Faithful p := by
  intro ctx task
  have hf := h.fronted task
  cases ha : p.added task with
  | none =>
    rw [ha] at hf
    rw [trackerDel_of_nil h.idle ctx hf,queryTracker,getTaskEvent_of_idle h.idle,hf]
    exact ⟨rfl,(fun data hd => by cases hd),fun _ => rfl⟩
  | some data =>
    rw [ha] at hf
    obtain ⟨rest,hl,-⟩ := hf
    rw [trackerDel_of_cons h.idle ctx hl,queryTracker,getTaskEvent_of_idle h.idle,
      queryDataTracker,getTaskData_of_idle h.idle,hl]
    refine ⟨rfl,fun d hd => ?_,fun t => ?_⟩
    · rw [Option.some.inj hd]
      exact ⟨rfl,rfl⟩
    · rw [destroyTaskData_list,hl,List.tail_cons]
      rcases eq_or_ne t task with rfl | hne
      · rw [Function.update_self,hl,foreign_cons]
      · rw [Function.update_of_ne hne]

/-- The lists and the additions change at one task. -/
lemma Inv.update {p : Shared Task} (h : Inv p) (task : Task) {l : List PerfEvent}
    {entry : Option Word} (hl : Fronted entry l) {flag : ℕ → Bool} (hflag : ∀ cpu, flag cpu = false) :
    Inv ⟨⟨Function.update p.state.perfEventList task l,flag⟩,Function.update p.added task entry⟩ where
  idle := hflag
  fronted := Update.rel (R := fun _ entry l => Fronted entry l) hl h.fronted

lemma Inv.add {p : Shared Task} (h : Inv p) {ctx : Context} (hctx : ctx.alloc = true)
    (task : Task) (data : Word) : Inv (p.step (.call ⟨ctx,.add task data⟩)) := by
  have hf := h.fronted task
  simp only [step,Tracker.next,Tracker.step,tracker]
  cases ha : p.added task with
  | none =>
    rw [ha] at hf
    rw [trackerAdd_of_nil h.idle ctx hf,if_pos hctx]
    have hfront : Fronted (some data) [⟨.kernel,data⟩] := ⟨[],rfl,by simp⟩
    exact h.update task hfront h.idle
  | some d =>
    rw [ha] at hf
    obtain ⟨rest,hl,-⟩ := hf
    rw [trackerAdd_of_cons h.idle ctx hl]
    exact h

lemma Inv.del {p : Shared Task} (h : Inv p) (ctx : Context) {task : Task}
    (hnone : foreign (p.state.perfEventList task) = []) :
    Inv (p.step (.call ⟨ctx,.del task⟩)) := by
  have hf := h.fronted task
  simp only [step,Tracker.next,Tracker.step,tracker]
  cases ha : p.added task with
  | none =>
    rw [ha] at hf
    rw [trackerDel_of_nil h.idle ctx hf,← ha,Function.update_eq_self]
    exact h
  | some d =>
    rw [ha] at hf
    obtain ⟨rest,hl,huser⟩ := hf
    rw [hl,foreign_cons,foreign_of_user huser] at hnone
    rw [trackerDel_of_cons h.idle ctx hl]
    refine ⟨destroyTaskData_idle h.idle ctx.cpu,?_⟩
    rw [destroyTaskData_list,hl,List.tail_cons,hnone]
    exact Update.rel (R := fun _ entry l => Fronted entry l) rfl h.fronted

lemma Inv.userOpen {p : Shared Task} (h : Inv p) {task : Task}
    (hadded : (p.added task).isSome = true) (pmuPrivate : Word) :
    Inv (p.step (.userOpen task pmuPrivate)) := by
  obtain ⟨data,ha⟩ := Option.isSome_iff_exists.mp hadded
  have hf := h.fronted task
  rw [ha] at hf
  obtain ⟨rest,hl,huser⟩ := hf
  have hfront : Fronted (some data) (p.state.perfEventList task ++ [⟨.user,pmuPrivate⟩]) := by
    refine ⟨rest ++ [⟨.user,pmuPrivate⟩],by rw [hl,List.cons_append],fun event he => ?_⟩
    rcases List.mem_append.mp he with he | he
    · exact huser event he
    · rw [List.mem_singleton.mp he]
  have hu := h.update task hfront h.idle
  rwa [← ha,Function.update_eq_self] at hu

lemma Inv.userClose {p : Shared Task} (h : Inv p) (task : Task) (i : ℕ) :
    Inv (p.step (.userClose task i)) := by
  have hf := h.fronted task
  simp only [step]
  split
  · rename_i howner
    cases ha : p.added task with
    | none =>
      rw [ha] at hf
      simp [show p.state.perfEventList task = [] from hf] at howner
    | some data =>
      rw [ha] at hf
      obtain ⟨rest,hl,huser⟩ := hf
      cases i with
      | zero => simp [hl] at howner
      | succ i =>
        have hfront : Fronted (some data) ((p.state.perfEventList task).eraseIdx (i+1)) :=
          ⟨rest.eraseIdx i,by rw [hl,List.eraseIdx_cons_succ],
            fun event he => huser event (List.mem_of_mem_eraseIdx he)⟩
        have hu := h.update task hfront h.idle
        rwa [← ha,Function.update_eq_self] at hu
  · exact h

theorem Inv.step {p : Shared Task} (h : Inv p) {e : Use Task} (hc : e.Creates)
    (ho : p.OwnFirst e) : Inv (p.step e) := by
  cases e with
  | call c =>
    obtain ⟨ctx,op⟩ := c
    cases op with
    | add task data => exact h.add hc task data
    | del task => exact h.del ctx ho
    | query task => exact h
    | queryData task => exact h
  | userOpen task pmuPrivate => exact h.userOpen ho pmuPrivate
  | userClose task i => exact h.userClose task i

/-- A task that is not added but has an event is reported as tracked. -/
lemma not_faithful {p : Shared Task} (hidle : Idle p.state) (task : Task)
    (ha : p.added task = none) (hl : p.state.perfEventList task ≠ []) : ¬ Faithful p := by
  intro h
  have hq := (h ⟨0,true,true⟩ task).1
  rw [queryTracker,getTaskEvent_of_idle hidle,ha] at hq
  cases hs : p.state.perfEventList task with
  | nil => exact hl hs
  | cons event rest => simp [hs] at hq

/-- From a state in which the tracker's events are in front, exactly the steps that keep them
there leave the answers right. -/
theorem Inv.faithful_iff {p : Shared Task} (h : Inv p) {e : Use Task} (hc : e.Creates) :
    Faithful (p.step e) ↔ p.OwnFirst e := by
  refine ⟨fun hfaithful => ?_,fun ho => (h.step hc ho).faithful⟩
  cases e with
  | userClose task i => trivial
  | userOpen task pmuPrivate =>
    by_contra hadded
    refine not_faithful (p := p.step (.userOpen task pmuPrivate)) h.idle task ?_ ?_
      hfaithful
    · exact Option.not_isSome_iff_eq_none.mp hadded
    · simp [Shared.step]
  | call c =>
    obtain ⟨ctx,op⟩ := c
    cases op with
    | add | query | queryData => trivial
    | del task =>
      have hf := h.fronted task
      cases ha : p.added task with
      | none =>
        rw [ha] at hf
        change foreign (p.state.perfEventList task) = []
        rw [show p.state.perfEventList task = [] from hf]
        rfl
      | some data =>
        rw [ha] at hf
        obtain ⟨rest,hl,huser⟩ := hf
        have hlist : (p.step (.call ⟨ctx,.del task⟩)).state.perfEventList task = rest := by
          simp [Shared.step,Tracker.next,Tracker.step,tracker,trackerDel_of_cons h.idle ctx hl,
            destroyTaskData_list,hl]
        have hidle : Idle (p.step (.call ⟨ctx,.del task⟩)).state := by
          simp [Shared.step,Tracker.next,Tracker.step,tracker,trackerDel_of_cons h.idle ctx hl,
            destroyTaskData_idle h.idle]
        by_contra hsome
        refine not_faithful hidle task (by simp [Shared.step]) (fun hnil => hsome ?_)
          hfaithful
        change foreign (p.state.perfEventList task) = []
        rw [hl,foreign_cons,← hlist,hnil]
        rfl

/-- With event creation succeeding, the perf tracker answers by its own events alone and spares
the foreign ones in every state of exactly those runs in which a task opens events only while it
is tracked and has closed them when it is deleted. -/
theorem ignores_foreign_iff {events : List (Use Task)} (hcreate : ∀ e ∈ events, e.Creates) :
    Admits step (fun p e => Faithful (p.step e)) (init : Shared Task) events ↔
      Admits step OwnFirst (init : Shared Task) events :=
  admits_iff_admits (fun _ _ h hc => h.faithful_iff hc) (fun _ _ h hc ho => h.step hc ho) inv_init
    (admits_of_forall fun e he _ => hcreate e he)

/-- A tracked task opens two events, closes one of them and then the other, and is deleted and
added again. -/
theorem ignores_foreign_closed :
    Admits step (fun p e => Faithful (p.step e)) (init : Shared Unit)
      [.call ⟨⟨0,true,true⟩,.add () 16⟩,.userOpen () 7,.userOpen () 8,.userClose () 1,
        .userClose () 1,.call ⟨⟨1,true,true⟩,.del ()⟩,.call ⟨⟨0,true,true⟩,.add () 32⟩] :=
  (ignores_foreign_iff (by decide)).mpr (by
    refine ⟨trivial,rfl,rfl,trivial,trivial,rfl,trivial,trivial⟩)

/-- A task opens an event before it is added: it is tracked already, its addition stores nothing,
the PMI handler gets the private pointer of the event, and the deletion releases it. -/
theorem foreign_event_released :
    let opened : Shared Unit := [Use.userOpen () 7].foldl step init
    let added := opened.step (.call ⟨⟨0,true,true⟩,.add () 16⟩)
    (queryTracker ⟨0,true,true⟩ opened.state () = true ∧
        queryDataTracker ⟨0,true,true⟩ added.state () = 7 ∧
        foreign ((trackerDel ⟨0,true,true⟩ added.state ()).1.perfEventList ()) = []) ∧
      ¬ Admits step (fun p e => Faithful (p.step e)) (init : Shared Unit) [.userOpen () 7] := by
  refine ⟨by decide,fun h => ?_⟩
  exact absurd (h.1 ⟨0,true,true⟩ ()).1 (by decide)

end Shared
end PmuMin.Perf
