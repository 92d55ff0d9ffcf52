import PmuMin.Tracker.Perf
import Mathlib.Data.Fintype.Basic

/-! `ptracker_perf.c` on many CPUs: the tasks run `tracker_add`, `query_tracker` and, as they exit,
`tracker_del` in steps, the scheduler moves them between CPUs wherever preemption is enabled or
they sleep, and PMIs that query the current task strike between any two steps. -/
namespace PmuMin.Perf.Preempted
open Machine

variable {Cpu Task Event : Type}

/-- An event that the tracker created: in use with its private pointer, or released on a CPU and
waiting for the grace period that frees it. -/
inductive Life (Cpu : Type)
  | live (pmuPrivate : Word)
  | released (cpu : Cpu)
  deriving DecidableEq, Repr

/-- The events, the lists with the holders of their mutexes, the removal flags; and the history:
the data linked to the list of each task, and those its removals took off, in their order. -/
structure Memory (Cpu Task Event : Type) where
  event : Event → Option (Life Cpu)
  perfEventList : Task → List Event
  perfEventMutex : Task → Option Task
  pcpuRemovingEvent : Cpu → Bool
  linked : Task → List Word
  handed : Task → List Word

def trackerInit : Memory Cpu Task Event :=
  ⟨fun _ => none,fun _ => [],fun _ => none,fun _ => false,fun _ => [],fun _ => []⟩

def Memory.datum (m : Memory Cpu Task Event) (e : Event) : Word :=
  match m.event e with
  | some (.live data) => data
  | _ => NULL

/-- The calls of a task; it removes no one but itself. -/
inductive Op (Task : Type)
  | add (task : Task) (data : Word)
  | del
  | query (task : Task)

/-- Program points, each before the step its name says. `disabling` turns preemption off and
raises the flag, `enabling` takes both back: nothing can tell the two apart. `sleeping` is a removal
in a `mutex_lock` that found the mutex taken. A `fault` is an access to an event that is freed, or
to the private pointer of one that is released. -/
inductive Pc (Task Event : Type)
  | idle
  | addChecking (task : Task) (data : Word)
  | addReading (task : Task) (data : Word)
  | creating (task : Task) (data : Word)
  | addLocking (task : Task) (event : Event)
  | addLinking (task : Task) (event : Event)
  | addUnlocking (task : Task)
  | delChecking
  | delReading
  | taking (event : Event)
  | disabling (data : Word)
  | destroying (data : Word)
  | clearing (data : Word) (event : Event)
  | releasing (data : Word) (event : Event)
  | delLocking (data : Word) (event : Event)
  | sleeping (data : Word) (event : Event)
  | unlinking (data : Word) (event : Event)
  | delUnlocking (data : Word)
  | enabling (data : Word)
  | queryChecking (task : Task)
  | queryReading (task : Task)
  | returning (res : Result)
  | fault
  deriving DecidableEq

def enter : Op Task → Pc Task Event
  | .add task data => .addChecking task data
  | .del => .delChecking
  | .query task => .queryChecking task

/-- Between `preempt_disable_notrace` and `preempt_enable_notrace`, unless the task sleeps there. -/
def preemptOff : Pc Task Event → Bool
  | .destroying _ | .clearing .. | .releasing .. | .delLocking .. | .unlinking ..
  | .delUnlocking _ | .enabling _ => true
  | _ => false

section Functions
variable [DecidableEq Cpu] [DecidableEq Task] [DecidableEq Event]

/-- The entries of a list that lie before and behind `e`. -/
def neighbours (e : Event) (l : List Event) : List Event :=
  (l.takeWhile (· != e)).getLast?.toList ++ ((l.dropWhile (· != e)).drop 1).head?.toList

/-- What `list_add_tail` and `list_del` write, none of it freed: the entry itself, and those it is
linked to or was. -/
def Memory.writable (m : Memory Cpu Task Event) (e : Event) (l : List Event) : Bool :=
  (e :: neighbours e l).all fun e' => (m.event e').isSome

/-- `list_add_tail`. -/
def Memory.link (m : Memory Cpu Task Event) (task : Task) (e : Event) : Memory Cpu Task Event :=
  { m with
    perfEventList := Function.update m.perfEventList task (m.perfEventList task ++ [e])
    linked := Function.update m.linked task (m.linked task ++ [m.datum e]) }

/-- `list_del`, by a removal that will return `data`. -/
def Memory.unlink (m : Memory Cpu Task Event) (task : Task) (data : Word) (e : Event) :
    Memory Cpu Task Event :=
  { m with
    perfEventList := Function.update m.perfEventList task ((m.perfEventList task).erase e)
    handed := Function.update m.handed task (m.handed task ++ [data]) }

/-- One step of the task `t`, which runs on the CPU, if it is not waiting for a mutex. `create` is
what `perf_event_create_kernel_counter` gives. -/
def advance (cpu : Cpu) (t : Task) (create : Option Event) (m : Memory Cpu Task Event) :
    Pc Task Event → Option (Memory Cpu Task Event × Pc Task Event)
  | .idle | .returning _ | .fault => none
  | .addChecking task data =>
    some (m,if m.pcpuRemovingEvent cpu then .creating task data else .addReading task data)
  | .addReading task data =>
    match m.perfEventList task with
    | [] => some (m,.creating task data)
    | _ :: _ => some (m,.returning (.code 0))
  | .creating task data =>
    match create with
    | none => some (m,.returning (.code 0))
    | some e =>
      if m.event e = none then
        some ({ m with event := Function.update m.event e (some (.live data)) },.addLocking task e)
      else none
  | .addLocking task e =>
    match m.perfEventMutex task with
    | none => some ({ m with perfEventMutex := Function.update m.perfEventMutex task (some t) },
        .addLinking task e)
    | some _ => none
  | .addLinking task e =>
    if m.writable e (m.perfEventList task ++ [e]) then
      some (m.link task e,.addUnlocking task)
    else some (m,.fault)
  | .addUnlocking task =>
    some ({ m with perfEventMutex := Function.update m.perfEventMutex task none },
      .returning (.code 0))
  | .delChecking =>
    some (m,if m.pcpuRemovingEvent cpu then .returning (.pointer NULL) else .delReading)
  | .delReading =>
    match m.perfEventList t with
    | [] => some (m,.returning (.pointer NULL))
    | e :: _ => some (m,.taking e)
  | .taking e =>
    match m.event e with
    | some (.live data) => some (m,.disabling data)
    | _ => some (m,.fault)
  | .disabling data =>
    some ({ m with pcpuRemovingEvent := Function.update m.pcpuRemovingEvent cpu true },
      .destroying data)
  | .destroying data =>
    match m.perfEventList t with
    | [] => some (m,.enabling data)
    | e :: _ => some (m,.clearing data e)
  | .clearing data e =>
    match m.event e with
    | some (.live _) =>
      some ({ m with event := Function.update m.event e (some (.live NULL)) },.releasing data e)
    | _ => some (m,.fault)
  | .releasing data e =>
    match m.event e with
    | some (.live _) =>
      some ({ m with event := Function.update m.event e (some (.released cpu)) },
        .delLocking data e)
    | _ => some (m,.fault)
  | .delLocking data e =>
    match m.perfEventMutex t with
    | none => some ({ m with perfEventMutex := Function.update m.perfEventMutex t (some t) },
        .unlinking data e)
    | some _ => some (m,.sleeping data e)
  | .sleeping data e =>
    match m.perfEventMutex t with
    | none => some ({ m with perfEventMutex := Function.update m.perfEventMutex t (some t) },
        .unlinking data e)
    | some _ => none
  | .unlinking data e =>
    if m.writable e (m.perfEventList t) then
      some (m.unlink t data e,.delUnlocking data)
    else some (m,.fault)
  | .delUnlocking data =>
    some ({ m with perfEventMutex := Function.update m.perfEventMutex t none },.enabling data)
  | .enabling data =>
    some ({ m with pcpuRemovingEvent := Function.update m.pcpuRemovingEvent cpu false },
      .returning (.pointer data))
  | .queryChecking task =>
    some (m,if m.pcpuRemovingEvent cpu then .returning (.flag false) else .queryReading task)
  | .queryReading task => some (m,.returning (.flag (m.perfEventList task != [])))

end Functions

/-- A PMI on its CPU: `query_data_tracker` of the current task, access by access. -/
inductive PmiPc (Event : Type)
  | idle
  | checking
  | reading
  | deref (event : Event)
  | done (data : Word)
  | fault
  deriving DecidableEq

/-- One access of a PMI on the CPU, whose current task is `t`. -/
def pmiAdvance (cpu : Cpu) (t : Task) (m : Memory Cpu Task Event) : PmiPc Event → PmiPc Event
  | .checking => if m.pcpuRemovingEvent cpu then .done NULL else .reading
  | .reading =>
    match m.perfEventList t with
    | [] => .done NULL
    | e :: _ => .deref e
  | .deref e =>
    match m.event e with
    | some (.live data) => .done data
    | _ => .fault
  | pc => pc

structure Config (Cpu Task Event : Type) where
  memory : Memory Cpu Task Event
  pc : Task → Pc Task Event
  current : Cpu → Task
  pmi : Cpu → PmiPc Event

def Config.put [DecidableEq Task] (c : Config Cpu Task Event) (t : Task) (m : Memory Cpu Task Event)
    (pc : Pc Task Event) : Config Cpu Task Event :=
  { c with memory := m, pc := Function.update c.pc t pc }

def initial (current : Cpu → Task) : Config Cpu Task Event :=
  ⟨trackerInit,fun _ => .idle,current,fun _ => .idle⟩

/-- What may happen next on a CPU, and `rcu`, which frees a released event. -/
inductive Action (Cpu Task Event : Type)
  | call (cpu : Cpu) (op : Op Task)
  | step (cpu : Cpu) (create : Option Event)
  | ret (cpu : Cpu)
  | switch (cpu : Cpu) (task : Task)
  | pmi (cpu : Cpu)
  | pmiStep (cpu : Cpu)
  | pmiRet (cpu : Cpu)
  | rcu (event : Event)

section Step
variable [DecidableEq Cpu] [Fintype Cpu] [DecidableEq Task] [DecidableEq Event]

/-- An action that is not possible changes nothing. A PMI runs to its end before its CPU goes on;
a grace period does not end on a CPU with preemption off. -/
def next (c : Config Cpu Task Event) : Action Cpu Task Event → Config Cpu Task Event
  | .call cpu op =>
    if c.pmi cpu = .idle ∧ c.pc (c.current cpu) = .idle then
      c.put (c.current cpu) c.memory (enter op)
    else c
  | .step cpu create =>
    if c.pmi cpu = .idle then
      match advance cpu (c.current cpu) create c.memory (c.pc (c.current cpu)) with
      | some (m,pc) => c.put (c.current cpu) m pc
      | none => c
    else c
  | .ret cpu =>
    if c.pmi cpu = .idle then
      match c.pc (c.current cpu) with
      | .returning _ => c.put (c.current cpu) c.memory .idle
      | _ => c
    else c
  | .switch cpu task =>
    if c.pmi cpu = .idle ∧ preemptOff (c.pc (c.current cpu)) = false ∧ ∀ cpu', c.current cpu' ≠ task
    then { c with current := Function.update c.current cpu task }
    else c
  | .pmi cpu =>
    if c.pmi cpu = .idle then { c with pmi := Function.update c.pmi cpu .checking } else c
  | .pmiStep cpu =>
    let pc := pmiAdvance cpu (c.current cpu) c.memory (c.pmi cpu)
    { c with pmi := Function.update c.pmi cpu pc }
  | .pmiRet cpu =>
    match c.pmi cpu with
    | .done _ => { c with pmi := Function.update c.pmi cpu .idle }
    | _ => c
  | .rcu e =>
    match c.memory.event e with
    | some (.released cpu) =>
      if preemptOff (c.pc (c.current cpu)) then c
      else { c with memory := { c.memory with event := Function.update c.memory.event e none } }
    | _ => c

/-- Before the `mutex_lock` of a removal. -/
def locksToDel : Pc Task Event → Bool
  | .delLocking .. => true
  | _ => false

/-- A removal that comes to its `mutex_lock` finds the mutex free. -/
def Uncontended (c : Config Cpu Task Event) : Action Cpu Task Event → Prop
  | .step cpu _ => c.pmi cpu = .idle ∧ locksToDel (c.pc (c.current cpu)) = true →
      c.memory.perfEventMutex (c.current cpu) = none
  | _ => True

instance (c : Config Cpu Task Event) : ∀ a, Decidable (Uncontended c a)
  | .step _ _ => inferInstanceAs (Decidable (_ ∧ _ → _ = none))
  | .call _ _ | .ret _ | .switch _ _ | .pmi _ | .pmiStep _ | .pmiRet _ | .rcu _ =>
    inferInstanceAs (Decidable True)

end Step

/-- The mutex that a task holds at a program point. -/
def holds (t : Task) : Pc Task Event → Option Task
  | .addLinking task _ | .addUnlocking task => some task
  | .unlinking .. | .delUnlocking _ => some t
  | _ => none

/-- The event that a task has created and not linked yet. -/
def owned : Pc Task Event → Option Event
  | .addLocking _ e | .addLinking _ e => some e
  | _ => none

/-- The event that is released and still linked. -/
def condemned : Pc Task Event → Option Event
  | .delLocking _ e | .sleeping _ e | .unlinking _ e => some e
  | _ => none

/-- The data that the list of a task stands for; a removal that has cleared the first one still
has it. -/
def pending (m : Memory Cpu Task Event) (t : Task) : Pc Task Event → List Word
  | .releasing data _ | .delLocking data _ | .sleeping data _ | .unlinking data _ =>
    data :: (m.perfEventList t).tail.map m.datum
  | _ => (m.perfEventList t).map m.datum

/-- What a task knows at a program point: an insertion owns an event in use that is on no list, a
removal has the first event of its list. -/
def Cursor (current : Cpu → Task) (m : Memory Cpu Task Event) (t : Task) : Pc Task Event → Prop
  | .addLocking _ e | .addLinking _ e =>
    (∃ d, m.event e = some (.live d)) ∧ ∀ t', e ∉ m.perfEventList t'
  | .taking e => (m.perfEventList t).head? = some e
  | .disabling data | .destroying data =>
    ∃ e, (m.perfEventList t).head? = some e ∧ m.event e = some (.live data)
  | .clearing data e => (m.perfEventList t).head? = some e ∧ m.event e = some (.live data)
  | .releasing _ e => (m.perfEventList t).head? = some e ∧ m.event e = some (.live NULL)
  | .delLocking _ e | .unlinking _ e =>
    (m.perfEventList t).head? = some e ∧
      ∃ cpu, current cpu = t ∧ m.event e = some (.released cpu)
  | .delUnlocking data | .enabling data | .returning (.pointer data) =>
    data = NULL ∨ (m.handed t).getLast? = some data
  | .sleeping .. | .fault => False
  | _ => True

/-- What a PMI knows of the CPU it has interrupted. -/
def Query (c : Config Cpu Task Event) (cpu : Cpu) : PmiPc Event → Prop
  | .idle | .checking => True
  | .reading => c.memory.pcpuRemovingEvent cpu = false
  | .deref e => c.memory.pcpuRemovingEvent cpu = false ∧
      (c.memory.perfEventList (c.current cpu)).head? = some e
  | .done data => data = NULL ∨ ∃ rest,
      c.memory.linked (c.current cpu) = c.memory.handed (c.current cpu) ++ data :: rest
  | .fault => False

/-- The invariant. -/
structure Safe (c : Config Cpu Task Event) : Prop where
  sole : Function.Injective c.current
  running : ∀ t, preemptOff (c.pc t) = true → ∃ cpu, c.current cpu = t
  flag : ∀ cpu, c.memory.pcpuRemovingEvent cpu = preemptOff (c.pc (c.current cpu))
  holder : ∀ t task, holds t (c.pc t) = some task ↔ c.memory.perfEventMutex task = some t
  nodup : ∀ t, (c.memory.perfEventList t).Nodup
  disjoint : ∀ t t' e, e ∈ c.memory.perfEventList t → e ∈ c.memory.perfEventList t' → t = t'
  alive : ∀ t, ∀ e ∈ c.memory.perfEventList t, condemned (c.pc t) ≠ some e →
    ∃ d, c.memory.event e = some (.live d)
  owner : ∀ t t' e, owned (c.pc t) = some e → owned (c.pc t') = some e → t = t'
  reached : ∀ e d, c.memory.event e = some (.live d) →
    (∃ t, e ∈ c.memory.perfEventList t) ∨ ∃ t, owned (c.pc t) = some e
  cursor : ∀ t, Cursor c.current c.memory t (c.pc t)
  query : ∀ cpu, Query c cpu (c.pmi cpu)
  order : ∀ t, c.memory.linked t = c.memory.handed t ++ pending c.memory t (c.pc t)

theorem safe_initial {current : Cpu → Task} (h : Function.Injective current) :
    Safe (initial current : Config Cpu Task Event) where
  sole := h
  running t ht := by simp [initial,preemptOff] at ht
  flag cpu := rfl
  holder t task := by simp [initial,holds,trackerInit]
  nodup t := List.nodup_nil
  disjoint t t' e he := by simp [initial,trackerInit] at he
  alive t e he := by simp [initial,trackerInit] at he
  owner t t' e he := by simp [initial,owned] at he
  reached e d he := by simp [initial,trackerInit] at he
  cursor t := trivial
  query cpu := trivial
  order t := rfl

/-- What the tracker promises in every state: no access meets an event that is freed, and none to a
private pointer one that is released; every event in use is on the list of one task or in the hands
of one insertion; each mutex has one holder at most; and the removal flag of a CPU is up exactly
while the task there is in its removal with preemption off. -/
structure Sound (c : Config Cpu Task Event) : Prop where
  tasks : ∀ t, c.pc t ≠ .fault
  pmis : ∀ cpu, c.pmi cpu ≠ .fault
  kept : ∀ e data, c.memory.event e = some (.live data) →
    (∃! t, e ∈ c.memory.perfEventList t) ∨ ∃! t, owned (c.pc t) = some e
  exclusive : ∀ t t' task, holds t (c.pc t) = some task → holds t' (c.pc t') = some task → t = t'
  flags : ∀ cpu, c.memory.pcpuRemovingEvent cpu = preemptOff (c.pc (c.current cpu))

theorem Safe.sound {c : Config Cpu Task Event} (h : Safe c) : Sound c where
  tasks t hp := by
    have hcur := h.cursor t
    rw [hp] at hcur
    exact hcur
  pmis cpu hp := by
    have hquery := h.query cpu
    rw [hp] at hquery
    exact hquery
  kept e data hd := by
    rcases h.reached e data hd with ⟨t,hl⟩ | ⟨t,ho⟩
    · exact .inl ⟨t,hl,fun t' hl' => h.disjoint t' t e hl' hl⟩
    · exact .inr ⟨t,ho,fun t' ho' => h.owner t' t e ho' ho⟩
  exclusive t t' task ht ht' := by
    have hmutex := (h.holder t task).mp ht
    rw [(h.holder t' task).mp ht'] at hmutex
    exact (Option.some.inj hmutex).symm
  flags := h.flag

/-- The list of a task goes on as it was, up to events in use linked behind it. -/
structure Extends (m m' : Memory Cpu Task Event) (t : Task) (added : List Event) : Prop where
  list : m'.perfEventList t = m.perfEventList t ++ added
  linked : m'.linked t = m.linked t ++ added.map m'.datum
  handed : m'.handed t = m.handed t
  event : ∀ e ∈ m.perfEventList t, m'.event e = m.event e
  live : ∀ e ∈ added, ∃ d, m'.event e = some (.live d)

namespace Extends
variable {m m' : Memory Cpu Task Event} {t : Task} {added : List Event}

lemma head? (h : Extends m m' t added) {e : Event} (he : (m.perfEventList t).head? = some e) :
    (m'.perfEventList t).head? = some e ∧ m'.event e = m.event e := by
  refine ⟨?_,h.event e (List.mem_of_head? he)⟩
  rw [h.list,List.head?_append,he]
  rfl

lemma datum (h : Extends m m' t added) :
    (m.perfEventList t).map m'.datum = (m.perfEventList t).map m.datum := by
  apply List.map_congr_left
  intro e he
  rw [Memory.datum,h.event e he,Memory.datum]

lemma cursor (h : Extends m m' t added) {current : Cpu → Task} {pc : Pc Task Event}
    (howned : ∀ e, owned pc = some e → m'.event e = m.event e ∧ ∀ t', e ∉ m'.perfEventList t')
    (hc : Cursor current m t pc) : Cursor current m' t pc := by
  cases pc with
  | addLocking task e | addLinking task e =>
    obtain ⟨he,hout⟩ := howned e rfl
    obtain ⟨⟨d,hd⟩,-⟩ := hc
    exact ⟨⟨d,he.trans hd⟩,hout⟩
  | taking e => exact (h.head? hc).1
  | disabling data | destroying data =>
    obtain ⟨e,hhead,hd⟩ := hc
    obtain ⟨hhead',he⟩ := h.head? hhead
    exact ⟨e,hhead',he.trans hd⟩
  | clearing data e | releasing data e =>
    obtain ⟨hhead,hd⟩ := hc
    obtain ⟨hhead',he⟩ := h.head? hhead
    exact ⟨hhead',he.trans hd⟩
  | delLocking data e | unlinking data e =>
    obtain ⟨hhead,cpu,hcpu,hd⟩ := hc
    obtain ⟨hhead',he⟩ := h.head? hhead
    exact ⟨hhead',cpu,hcpu,he.trans hd⟩
  | delUnlocking data | enabling data =>
    rw [Cursor,h.handed]
    exact hc
  | returning res =>
    cases res with
    | pointer data =>
      rw [Cursor,h.handed]
      exact hc
    | code _ | flag _ => trivial
  | sleeping data e => exact hc
  | fault => exact hc
  | _ => trivial

lemma order (h : Extends m m' t added) {current : Cpu → Task} {pc : Pc Task Event}
    (hc : Cursor current m t pc) (ho : m.linked t = m.handed t ++ pending m t pc) :
    m'.linked t = m'.handed t ++ pending m' t pc := by
  have hpending : pending m' t pc = pending m t pc ++ added.map m'.datum := by
    have hmap : (m'.perfEventList t).map m'.datum =
        (m.perfEventList t).map m.datum ++ added.map m'.datum := by
      rw [h.list,List.map_append,h.datum]
    have htail : ∀ e, (m.perfEventList t).head? = some e →
        (m'.perfEventList t).tail.map m'.datum =
          (m.perfEventList t).tail.map m.datum ++ added.map m'.datum := by
      intro e he
      have hne : m.perfEventList t ≠ [] := by
        rintro hnil
        simp [hnil] at he
      rw [h.list,List.tail_append_of_ne_nil hne,List.map_append,List.map_tail,List.map_tail,h.datum]
    cases pc with
    | releasing data e | delLocking data e | unlinking data e =>
      rw [pending,pending,htail e hc.1,List.cons_append]
    | sleeping data e => exact hc.elim
    | _ => exact hmap
  rw [h.linked,h.handed,hpending,ho,List.append_assoc]

end Extends

section Knowledge
variable {c : Config Cpu Task Event} {t : Task} {e : Event}

lemma Safe.unlinked (h : Safe c) (ho : owned (c.pc t) = some e) :
    (∃ d, c.memory.event e = some (.live d)) ∧ ∀ t', e ∉ c.memory.perfEventList t' := by
  have hcur := h.cursor t
  cases hp : c.pc t <;> rw [hp] at hcur ho <;> cases ho
  · exact hcur
  · exact hcur

/-- An event that is released and still linked is the first of the list of its task, which runs
on the CPU of the release. -/
lemma Safe.released (h : Safe c) (hcond : condemned (c.pc t) = some e) :
    (c.memory.perfEventList t).head? = some e ∧ preemptOff (c.pc t) = true ∧
      ∃ cpu, c.current cpu = t ∧ c.memory.event e = some (.released cpu) := by
  have hcur := h.cursor t
  cases hp : c.pc t <;> rw [hp] at hcur hcond <;> cases hcond
  · exact ⟨hcur.1,rfl,hcur.2⟩
  · exact hcur.elim
  · exact ⟨hcur.1,rfl,hcur.2⟩

lemma Safe.linked_ne_none (h : Safe c) (hmem : e ∈ c.memory.perfEventList t) :
    c.memory.event e ≠ none := by
  by_cases hcond : condemned (c.pc t) = some e
  · obtain ⟨-,-,cpu,-,he⟩ := h.released hcond
    rw [he]
    exact Option.some_ne_none _
  · obtain ⟨d,hd⟩ := h.alive t e hmem hcond
    rw [hd]
    exact Option.some_ne_none _

lemma mem_of_mem_neighbours [DecidableEq Event] {e' : Event} {l : List Event}
    (h : e' ∈ neighbours e l) : e' ∈ l := by
  rcases List.mem_append.mp h with h | h
  · have hlast := List.mem_of_getLast? (Option.mem_toList.mp h)
    exact (List.takeWhile_sublist _).subset hlast
  · have hhead := List.mem_of_head? (Option.mem_toList.mp h)
    exact ((List.drop_sublist ..).trans (List.dropWhile_sublist _)).subset hhead

lemma Safe.writable [DecidableEq Event] (h : Safe c) {l : List Event}
    (he : c.memory.event e ≠ none) (hl : ∀ e' ∈ l, e' = e ∨ e' ∈ c.memory.perfEventList t) :
    c.memory.writable e l = true := by
  rw [Memory.writable,List.all_eq_true]
  intro e' hmem
  rw [Option.isSome_iff_ne_none]
  rcases List.mem_cons.mp hmem with rfl | hmem
  · exact he
  · rcases hl e' (mem_of_mem_neighbours hmem) with rfl | hlist
    · exact he
    · exact h.linked_ne_none hlist

/-- The stores of `list_add_tail` meet no entry that is freed. -/
lemma Safe.writable_tail [DecidableEq Event] (h : Safe c) {task : Task}
    (hp : c.pc t = .addLinking task e) :
    c.memory.writable e (c.memory.perfEventList task ++ [e]) = true := by
  obtain ⟨⟨d,hd⟩,-⟩ := h.unlinked (t := t) (e := e) (by rw [hp]; rfl)
  refine h.writable (t := task) (by rw [hd]; exact Option.some_ne_none _) fun e' he' => ?_
  exact (List.mem_append.mp he').symm.imp_left List.mem_singleton.mp

/-- Nor do those of `list_del`. -/
lemma Safe.writable_del [DecidableEq Event] (h : Safe c) {data : Word}
    (hp : c.pc t = .unlinking data e) :
    c.memory.writable e (c.memory.perfEventList t) = true := by
  obtain ⟨-,-,cpu,-,hreleased⟩ := h.released (t := t) (e := e) (by rw [hp]; rfl)
  exact h.writable (by rw [hreleased]; exact Option.some_ne_none _) fun e' he' => .inr he'

lemma exists_rest {m : Memory Cpu Task Event} (hhead : (m.perfEventList t).head? = some e) :
    ∃ rest, m.perfEventList t = e :: rest := by
  cases hl : m.perfEventList t with
  | nil => simp [hl] at hhead
  | cons e' rest =>
    rw [hl] at hhead
    exact ⟨rest,by rw [Option.some.inj hhead]⟩

lemma Safe.datum_tail [DecidableEq Event] (h : Safe c) (l : Life Cpu)
    (hhead : (c.memory.perfEventList t).head? = some e) :
    (c.memory.perfEventList t).tail.map
        ({ c.memory with event := Function.update c.memory.event e (some l) } :
          Memory Cpu Task Event).datum =
      (c.memory.perfEventList t).tail.map c.memory.datum := by
  have hnodup := h.nodup t
  obtain ⟨rest,hlist⟩ := exists_rest hhead
  rw [hlist,List.nodup_cons] at hnodup
  rw [hlist,List.tail_cons]
  apply List.map_congr_left
  intro e' he'
  have hne : e' ≠ e := fun he => hnodup.1 (he ▸ he')
  simp only [Memory.datum,Function.update_of_ne hne]

end Knowledge

end PmuMin.Perf.Preempted
