import PmuMin.Library.Machine
import PmuMin.Library.ReturnProbe
import Mathlib.Data.Fintype.Card

/-! The return probes of `system_hook_kprobe.c` under the calls of all CPUs: which context switches,
exits and forks reach their callbacks. The module stays mounted throughout. -/
namespace PmuMin.Kretprobe
open Machine ReturnProbe

/-- A call of `hook_sched_in`, `hook_proc_exit` or `hook_proc_fork`. The child of a fork may be gone
already. -/
inductive Call (Task : Type)
  | schedIn (prev next : Task)
  | procExit (task : Task)
  | procFork (parent : Task) (child : Option Task)
  deriving DecidableEq, Repr

def Call.isSchedIn {Task : Type} : Call Task → Bool
  | .schedIn .. => true
  | _ => false

/-- The probes, the task on each CPU and the calls made so far; and the history: the calls owed, one
for each switch, exit and successful fork that comes about with the hooks enabled. -/
structure State (Cpu Task : Type) where
  krpCtxs : ReturnProbe.State Cpu Task
  krpExit : ReturnProbe.State Task Unit
  krpFork : ReturnProbe.State Task Unit
  shookEnabled : Bool
  current : Cpu → Task
  calls : List (Call Task)
  owed : List (Call Task)

/-- A CPU goes over to another task and enters `finish_task_switch`, or returns from it; a task
enters `do_exit`, and is flushed once it is dead; a task enters `_do_fork` or returns from it, with
nothing or with what `get_pid_task` finds for the child. -/
inductive Event (Cpu Task : Type)
  | switch (cpu : Cpu) (task : Task)
  | finish (cpu : Cpu)
  | doExit (task : Task)
  | flush (task : Task)
  | doFork (task : Task)
  | forkReturns (task : Task) (ret : Option (Option Task))
  | setStateEnable (state : Bool)
  deriving DecidableEq, Repr

variable {Cpu Task : Type}

/-- The calls that an event stands for. -/
def owes (s : State Cpu Task) : Event Cpu Task → List (Call Task)
  | .finish cpu => [.schedIn (s.krpCtxs.arg cpu) (s.current cpu)]
  | .doExit task => [.procExit task]
  | .forkReturns task (some ntask) => [.procFork task ntask]
  | _ => []

/-- With `start_handler` true, the callback is called. -/
def handle (s : State Cpu Task) (calls : List (Call Task)) : State Cpu Task :=
  if s.shookEnabled then { s with calls := s.calls ++ calls } else s

def ctxsHandler (cpu : Cpu) (prev : Task) (s : State Cpu Task) : State Cpu Task :=
  handle s [.schedIn prev (s.current cpu)]

def exitEntryHandler (current : Task) (s : State Cpu Task) : State Cpu Task :=
  handle s [.procExit current]

def forkHandler (current : Task) (ret : Option (Option Task)) (s : State Cpu Task) :
    State Cpu Task :=
  match ret with
  | none => s
  | some ntask => handle s [.procFork current ntask]

section Step
variable [DecidableEq Cpu] [DecidableEq Task]

def step (s : State Cpu Task) : Event Cpu Task → State Cpu Task
  | .switch cpu task =>
    -- `ctxs_entry_handler` stores the argument of `finish_task_switch`
    { s with
      krpCtxs := (enter cpu (s.current cpu) s.krpCtxs).2
      current := Function.update s.current cpu task }
  | .finish cpu =>
    let r := leave cpu s.krpCtxs
    let s := { s with krpCtxs := r.2 }
    match r.1 with
    | none => s
    | some prev => ctxsHandler cpu prev s
  | .doExit task =>
    let r := enter task () s.krpExit
    let s := { s with krpExit := r.2 }
    if r.1 then exitEntryHandler task s else s
  | .flush task => { s with krpExit := (leave task s.krpExit).2 }
  | .doFork task => { s with krpFork := (enter task () s.krpFork).2 }
  | .forkReturns task ret =>
    let r := leave task s.krpFork
    let s := { s with krpFork := r.2 }
    match r.1 with
    | none => s
    | some _ => forkHandler task ret s
  | .setStateEnable state => { s with shookEnabled := state }

def next (s : State Cpu Task) (e : Event Cpu Task) : State Cpu Task :=
  { step s e with owed := if s.shookEnabled then s.owed ++ owes s e else s.owed }

omit [DecidableEq Cpu] [DecidableEq Task] in
/-- `finish_task_switch` runs with preemption disabled, so a CPU is in it once at most; a task exits
once, and forks one child at a time. Only what was entered after the probes were registered
returns to them. -/
def Allows (s : State Cpu Task) : Event Cpu Task → Prop
  | .switch cpu _ => cpu ∉ s.krpCtxs.underWay
  | .finish cpu => cpu ∈ s.krpCtxs.underWay
  | .doExit task => task ∉ s.krpExit.underWay
  | .flush task => task ∈ s.krpExit.underWay
  | .doFork task => task ∉ s.krpFork.underWay
  | .forkReturns task _ => task ∈ s.krpFork.underWay
  | .setStateEnable _ => True

instance (s : State Cpu Task) : DecidablePred (Allows s)
  | .switch .. | .doExit _ | .doFork _ => inferInstanceAs (Decidable (_ ∉ _))
  | .finish _ | .flush _ | .forkReturns .. => inferInstanceAs (Decidable (_ ∈ _))
  | .setStateEnable _ => inferInstanceAs (Decidable True)

end Step

section Runs
variable [Fintype Cpu]

variable (Cpu) in
/-- `num_possible_cpus() + 1`. -/
def maxactive : ℕ := Fintype.card Cpu + 1

/-- The probes as `init_kprobes` registers them. -/
def initKprobes (shookEnabled : Bool) (current : Cpu → Task) (data : ℕ → Task) :
    State Cpu Task where
  krpCtxs := ReturnProbe.init (maxactive Cpu) data current
  krpExit := ReturnProbe.init (maxactive Cpu) (fun _ => ()) fun _ => ()
  krpFork := ReturnProbe.init (maxactive Cpu) (fun _ => ()) fun _ => ()
  shookEnabled
  current
  calls := []
  owed := []

/-- When a task enters `do_exit`, at most as many others as there are CPUs are on their way from there
to their flush; the same for the forks. -/
def Few (s : State Cpu Task) : Event Cpu Task → Prop
  | .doExit _ => s.krpExit.underWay.card ≤ Fintype.card Cpu
  | .doFork _ => s.krpFork.underWay.card ≤ Fintype.card Cpu
  | _ => True

instance (s : State Cpu Task) : DecidablePred (Few s)
  | .doExit _ | .doFork _ => inferInstanceAs (Decidable (_ ≤ _))
  | .switch .. | .finish _ | .flush _ | .forkReturns .. | .setStateEnable _ =>
    inferInstanceAs (Decidable True)

/-- No exit and no fork was missed. -/
def NoneMissed (s : State Cpu Task) : Prop := s.krpExit.nmissed = 0 ∧ s.krpFork.nmissed = 0

instance (s : State Cpu Task) : Decidable (NoneMissed s) := inferInstanceAs (Decidable (_ ∧ _))

section Handle
variable (s : State Cpu Task) (calls : List (Call Task))

omit [Fintype Cpu] in
@[simp] lemma handle_krpCtxs : (handle s calls).krpCtxs = s.krpCtxs := by
  rw [handle]
  split_ifs <;> rfl

omit [Fintype Cpu] in
@[simp] lemma handle_krpExit : (handle s calls).krpExit = s.krpExit := by
  rw [handle]
  split_ifs <;> rfl

omit [Fintype Cpu] in
@[simp] lemma handle_krpFork : (handle s calls).krpFork = s.krpFork := by
  rw [handle]
  split_ifs <;> rfl

omit [Fintype Cpu] in
lemma handle_calls :
    (handle s calls).calls = if s.shookEnabled then s.calls ++ calls else s.calls := by
  rw [handle]
  split_ifs <;> rfl

end Handle

section Inv
variable [DecidableEq Cpu] [DecidableEq Task] {s : State Cpu Task}

omit [Fintype Cpu] [DecidableEq Cpu] [DecidableEq Task] in
lemma append_owes_nil (s : State Cpu Task) (e : Event Cpu Task) (howes : owes s e = []) :
    s.calls = if s.shookEnabled then s.calls ++ owes s e else s.calls := by
  rw [howes,List.append_nil,ite_self]

/-- The probes keep to their pools. -/
structure Pools (s : State Cpu Task) : Prop where
  krpCtxs : ReturnProbe.Inv (maxactive Cpu) s.krpCtxs
  krpExit : ReturnProbe.Inv (maxactive Cpu) s.krpExit
  krpFork : ReturnProbe.Inv (maxactive Cpu) s.krpFork
  noSwitchMissed : s.krpCtxs.nmissed = 0

/-- A switch always finds an instance; and with none missed the callbacks get all that is owed. -/
structure Inv (s : State Cpu Task) : Prop where
  pools : Pools s
  schedIns : s.calls.filter Call.isSchedIn = s.owed.filter Call.isSchedIn
  all : NoneMissed s → s.calls = s.owed

omit [DecidableEq Cpu] [DecidableEq Task] in
lemma inv_initKprobes (shookEnabled : Bool) (current : Cpu → Task) (data : ℕ → Task) :
    Inv (initKprobes shookEnabled current data) :=
  ⟨⟨inv_init ..,inv_init ..,inv_init ..,rfl⟩,rfl,fun _ => rfl⟩

/-- The log of the calls and the log of what is owed grow by the same. -/
lemma Inv.grow (h : Inv s) {e : Event Cpu Task} (hpools : Pools (step s e))
    (hmissed : NoneMissed (step s e) → NoneMissed s)
    (hcalls : (step s e).calls = if s.shookEnabled then s.calls ++ owes s e else s.calls) :
    Inv (next s e) := by
  refine ⟨⟨hpools.krpCtxs,hpools.krpExit,hpools.krpFork,hpools.noSwitchMissed⟩,?_,fun hnone => ?_⟩
  · change (step s e).calls.filter Call.isSchedIn =
      (if s.shookEnabled then s.owed ++ owes s e else s.owed).filter Call.isSchedIn
    rw [hcalls]
    split_ifs
    · rw [List.filter_append,List.filter_append,h.schedIns]
    · exact h.schedIns
  · change (step s e).calls = if s.shookEnabled then s.owed ++ owes s e else s.owed
    rw [hcalls,h.all (hmissed hnone)]

/-- A missed exit or fork is owed and not called. -/
lemma Inv.miss (h : Inv s) {e : Event Cpu Task} (hpools : Pools (step s e))
    (hmissed : ¬ NoneMissed (step s e)) (hcalls : (step s e).calls = s.calls)
    (howes : (owes s e).filter Call.isSchedIn = []) : Inv (next s e) := by
  refine ⟨⟨hpools.krpCtxs,hpools.krpExit,hpools.krpFork,hpools.noSwitchMissed⟩,?_,
    fun hnone => absurd hnone hmissed⟩
  change (step s e).calls.filter Call.isSchedIn =
    (if s.shookEnabled then s.owed ++ owes s e else s.owed).filter Call.isSchedIn
  rw [hcalls,h.schedIns]
  split_ifs
  · rw [List.filter_append,howes,List.append_nil]
  · rfl

/-- There is an instance for each CPU, and the return handler finds the task that the CPU has left. -/
lemma Inv.finish (h : Inv s) {cpu : Cpu} (hcpu : cpu ∈ s.krpCtxs.underWay) :
    Inv (next s (.finish cpu)) := by
  have hfst := h.pools.krpCtxs.leave_fst_eq h.pools.noSwitchMissed hcpu
  have hstep : step s (.finish cpu) = handle { s with krpCtxs := (leave cpu s.krpCtxs).2 }
      [.schedIn (s.krpCtxs.arg cpu) (s.current cpu)] := by
    simp only [step,hfst]
    rfl
  refine h.grow ?_ ?_ ?_
  · rw [hstep]
    refine ⟨?_,?_,?_,?_⟩
    · rw [handle_krpCtxs]
      exact h.pools.krpCtxs.leave hcpu
    · rw [handle_krpExit]
      exact h.pools.krpExit
    · rw [handle_krpFork]
      exact h.pools.krpFork
    · rw [handle_krpCtxs]
      exact (nmissed_leave ..).trans h.pools.noSwitchMissed
  · rw [hstep,NoneMissed,handle_krpExit,handle_krpFork]
    exact id
  · rw [hstep,handle_calls]
    rfl

/-- The handler runs at the entry, unless the exit is missed. -/
lemma Inv.doExit (h : Inv s) {task : Task} (htask : task ∉ s.krpExit.underWay) :
    Inv (next s (.doExit task)) := by
  have hpool := h.pools.krpExit.enter htask ()
  cases hfst : (enter task () s.krpExit).1 with
  | false =>
    have hstep : step s (.doExit task) = { s with krpExit := (enter task () s.krpExit).2 } := by
      simp only [step,hfst,Bool.false_eq_true,if_false]
    have hmissed : (enter task () s.krpExit).2.nmissed ≠ s.krpExit.nmissed := fun heq =>
      absurd ((enter_fst ..).mpr heq) (by rw [hfst]; exact Bool.false_ne_true)
    refine h.miss ?_ ?_ ?_ rfl
    · rw [hstep]
      exact ⟨h.pools.krpCtxs,hpool,h.pools.krpFork,h.pools.noSwitchMissed⟩
    · rw [hstep]
      intro hnone
      have hle := nmissed_le_enter task () s.krpExit
      have hzero : (enter task () s.krpExit).2.nmissed = 0 := hnone.1
      omega
    · rw [hstep]
  | true =>
    have hstep : step s (.doExit task) =
        handle { s with krpExit := (enter task () s.krpExit).2 } [.procExit task] := by
      simp only [step,hfst,if_true]
      rfl
    have hsame := (enter_fst ..).mp hfst
    refine h.grow ?_ ?_ ?_
    · rw [hstep]
      refine ⟨?_,?_,?_,?_⟩
      · rw [handle_krpCtxs]
        exact h.pools.krpCtxs
      · rw [handle_krpExit]
        exact hpool
      · rw [handle_krpFork]
        exact h.pools.krpFork
      · rw [handle_krpCtxs]
        exact h.pools.noSwitchMissed
    · rw [hstep,NoneMissed,handle_krpExit,handle_krpFork]
      exact fun hnone => ⟨hsame.symm.trans hnone.1,hnone.2⟩
    · rw [hstep,handle_calls]
      rfl

/-- The handler runs at the return, unless the fork was missed when it was entered. -/
lemma Inv.forkReturns (h : Inv s) {task : Task} (htask : task ∈ s.krpFork.underWay)
    (ret : Option (Option Task)) : Inv (next s (.forkReturns task ret)) := by
  have hpool := h.pools.krpFork.leave htask
  cases hfst : (leave task s.krpFork).1 with
  | none =>
    have hstep : step s (.forkReturns task ret) =
        { s with krpFork := (leave task s.krpFork).2 } := by
      simp only [step,hfst]
    refine h.miss ?_ ?_ ?_ ?_
    · rw [hstep]
      exact ⟨h.pools.krpCtxs,h.pools.krpExit,hpool,h.pools.noSwitchMissed⟩
    · rw [hstep]
      intro hnone
      have hzero : s.krpFork.nmissed = 0 := (nmissed_leave ..).symm.trans hnone.2
      rw [h.pools.krpFork.leave_fst_eq hzero htask] at hfst
      cases hfst
    · rw [hstep]
    · cases ret <;> rfl
  | some d =>
    have hstep : step s (.forkReturns task ret) =
        forkHandler task ret { s with krpFork := (leave task s.krpFork).2 } := by
      simp only [step,hfst]
    cases ret with
    | none =>
      refine h.grow ?_ ?_ ?_
      · rw [hstep]
        exact ⟨h.pools.krpCtxs,h.pools.krpExit,hpool,h.pools.noSwitchMissed⟩
      · rw [hstep]
        exact fun hnone => ⟨hnone.1,(nmissed_leave ..).symm.trans hnone.2⟩
      · rw [hstep]
        exact append_owes_nil s (.forkReturns task none) rfl
    | some ntask =>
      rw [forkHandler] at hstep
      refine h.grow ?_ ?_ ?_
      · rw [hstep]
        refine ⟨?_,?_,?_,?_⟩
        · rw [handle_krpCtxs]
          exact h.pools.krpCtxs
        · rw [handle_krpExit]
          exact h.pools.krpExit
        · rw [handle_krpFork]
          exact hpool
        · rw [handle_krpCtxs]
          exact h.pools.noSwitchMissed
      · rw [hstep,NoneMissed,handle_krpExit,handle_krpFork]
        exact fun hnone => ⟨hnone.1,(nmissed_leave ..).symm.trans hnone.2⟩
      · rw [hstep,handle_calls]
        rfl

theorem Inv.next (h : Inv s) {e : Event Cpu Task} (ha : Allows s e) : Inv (next s e) := by
  obtain ⟨hctxs,hexit,hfork,hzero⟩ := h.pools
  cases e with
  | switch cpu task =>
    have hlt : s.krpCtxs.underWay.card < maxactive Cpu := Nat.lt_succ_of_le (Finset.card_le_univ _)
    have hnone := (hctxs.nmissed_enter_iff hzero (c := cpu) (s.current cpu)).mpr hlt
    exact h.grow ⟨hctxs.enter ha _,hexit,hfork,hnone⟩ id
      (append_owes_nil s (.switch cpu task) rfl)
  | finish cpu => exact h.finish ha
  | doExit task => exact h.doExit ha
  | flush task =>
    refine h.grow ⟨hctxs,hexit.leave ha,hfork,hzero⟩ (fun hnone => ?_)
      (append_owes_nil s (.flush task) rfl)
    exact ⟨(nmissed_leave ..).symm.trans hnone.1,hnone.2⟩
  | doFork task =>
    refine h.grow ⟨hctxs,hexit,hfork.enter ha (),hzero⟩ (fun hnone => ?_)
      (append_owes_nil s (.doFork task) rfl)
    exact ⟨hnone.1,Nat.eq_zero_of_le_zero ((nmissed_le_enter ..).trans hnone.2.le)⟩
  | forkReturns task ret => exact h.forkReturns ha ret
  | setStateEnable state =>
    exact h.grow ⟨hctxs,hexit,hfork,hzero⟩ id (append_owes_nil s (.setStateEnable state) rfl)

omit [Fintype Cpu] in
/-- Of the probes of `do_exit` and of `_do_fork`, an event changes what its own calls change. -/
lemma krps_step (s : State Cpu Task) (e : Event Cpu Task) :
    ((step s e).krpExit,(step s e).krpFork) =
      match e with
      | .doExit task => ((enter task () s.krpExit).2,s.krpFork)
      | .flush task => ((leave task s.krpExit).2,s.krpFork)
      | .doFork task => (s.krpExit,(enter task () s.krpFork).2)
      | .forkReturns task _ => (s.krpExit,(leave task s.krpFork).2)
      | _ => (s.krpExit,s.krpFork) := by
  cases e with
  | switch | flush | doFork | setStateEnable => rfl
  | finish cpu =>
    simp only [step]
    cases (leave cpu s.krpCtxs).1 with
    | none => rfl
    | some prev => exact Prod.ext (handle_krpExit ..) (handle_krpFork ..)
  | doExit task =>
    simp only [step]
    cases (enter task () s.krpExit).1 with
    | false => rfl
    | true => exact Prod.ext (handle_krpExit ..) (handle_krpFork ..)
  | forkReturns task ret =>
    simp only [step]
    cases (leave task s.krpFork).1 with
    | none => rfl
    | some d =>
      cases ret with
      | none => rfl
      | some ntask => exact Prod.ext (handle_krpExit ..) (handle_krpFork ..)

omit [Fintype Cpu] in
/-- What an event leaves of the two counts of missed calls. -/
lemma noneMissed_next_iff (s : State Cpu Task) (e : Event Cpu Task) : NoneMissed (next s e) ↔
    match e with
    | .doExit task => (enter task () s.krpExit).2.nmissed = 0 ∧ s.krpFork.nmissed = 0
    | .doFork task => s.krpExit.nmissed = 0 ∧ (enter task () s.krpFork).2.nmissed = 0
    | _ => NoneMissed s := by
  have hkrps := krps_step s e
  change (step s e).krpExit.nmissed = 0 ∧ (step s e).krpFork.nmissed = 0 ↔ _
  cases e <;> obtain ⟨hexit,hfork⟩ := Prod.mk.inj hkrps <;> rw [hexit,hfork]
  case flush task => exact and_congr_left' (by rw [nmissed_leave])
  case forkReturns task ret => exact and_congr_right' (by rw [nmissed_leave])
  all_goals exact Iff.rfl

omit [Fintype Cpu] in
lemma noneMissed_of_next (s : State Cpu Task) (e : Event Cpu Task) (h : NoneMissed (next s e)) :
    NoneMissed s := by
  rw [noneMissed_next_iff] at h
  cases e with
  | doExit task => exact ⟨Nat.eq_zero_of_le_zero ((nmissed_le_enter ..).trans h.1.le),h.2⟩
  | doFork task => exact ⟨h.1,Nat.eq_zero_of_le_zero ((nmissed_le_enter ..).trans h.2.le)⟩
  | switch | finish | flush | forkReturns | setStateEnable => exact h

/-- With none missed so far, the next exit or fork is missed exactly if too many are under way. -/
lemma noneMissed_next_iff_few (h : Inv s) (hnone : NoneMissed s) (e : Event Cpu Task) :
    NoneMissed (next s e) ↔ Few s e := by
  rw [noneMissed_next_iff]
  cases e with
  | doExit task =>
    dsimp only
    rw [h.pools.krpExit.nmissed_enter_iff hnone.1,and_iff_left hnone.2]
    exact Nat.lt_succ_iff
  | doFork task =>
    dsimp only
    rw [h.pools.krpFork.nmissed_enter_iff hnone.2,and_iff_right hnone.1]
    exact Nat.lt_succ_iff
  | switch | finish | flush | forkReturns | setStateEnable => exact iff_of_true hnone trivial

end Inv

section Main
variable [DecidableEq Cpu] [DecidableEq Task]

/-- The probe of `finish_task_switch` misses no context switch: whatever the CPUs do at the same time,
each switch that returns with the hooks enabled is passed to `hook_sched_in` once, in the order of
the returns, with the task that its own CPU has left and the one it has gone over to. -/
theorem no_switch_missed (shookEnabled : Bool) (current : Cpu → Task) (data : ℕ → Task)
    {es : List (Event Cpu Task)}
    (hrun : Admits next Allows (initKprobes shookEnabled current data) es) :
    let s := es.foldl next (initKprobes shookEnabled current data)
    s.krpCtxs.nmissed = 0 ∧ s.calls.filter Call.isSchedIn = s.owed.filter Call.isSchedIn := by
  have h := hrun.invariant (I := Inv) (fun _ _ h ha => h.next ha)
    (inv_initKprobes shookEnabled current data)
  exact ⟨h.pools.noSwitchMissed,h.schedIns⟩

/-- Two CPUs that switch at the same time and return the other way round. -/
theorem no_switch_missed_two :
    let es : List (Event Bool (Fin 4)) := [.switch false 2,.switch true 3,.finish true,.finish false]
    let s := es.foldl next (initKprobes true (fun cpu : Bool => cond cpu 1 0) fun _ => 0)
    s.krpCtxs.nmissed = 0 ∧ s.calls.filter Call.isSchedIn = s.owed.filter Call.isSchedIn :=
  no_switch_missed true (fun cpu : Bool => cond cpu 1 0) (fun _ => 0) (by decide)

/-- The counts of missed exits and forks that `fini_kprobes` prints stay at zero in exactly those runs
in which at most as many tasks as there are CPUs are on their way through `do_exit`, and through
`_do_fork`, whenever another one enters; then every switch, exit and fork that comes about with the
hooks enabled is passed to its callback once, in order. -/
theorem none_missed_iff (shookEnabled : Bool) (current : Cpu → Task) (data : ℕ → Task)
    {es : List (Event Cpu Task)}
    (hrun : Admits next Allows (initKprobes shookEnabled current data) es) :
    let s := es.foldl next (initKprobes shookEnabled current data)
    (NoneMissed s ↔ Admits next Few (initKprobes shookEnabled current data) es) ∧
      (NoneMissed s → s.calls = s.owed) := by
  have hinit := inv_initKprobes shookEnabled current data
  have h := hrun.invariant (I := Inv) (fun _ _ h ha => h.next ha) hinit
  refine ⟨?_,h.all⟩
  have hnone : NoneMissed (initKprobes shookEnabled current data) := ⟨rfl,rfl⟩
  rw [← admits_next_iff noneMissed_of_next es hnone]
  refine admits_iff_admits (I := fun s => Inv s ∧ NoneMissed s) (fun s e hs _ => ?_)
    (fun s e hs ha hfew => ?_) ⟨hinit,hnone⟩ hrun
  · exact noneMissed_next_iff_few hs.1 hs.2 e
  · exact ⟨hs.1.next ha,(noneMissed_next_iff_few hs.1 hs.2 e).mpr hfew⟩

/-- One CPU, two tasks that exit and one that forks at the same time. -/
theorem none_missed_exits :
    let es : List (Event Unit (Fin 4)) := [.doExit 1,.doFork 3,.switch () 2,.finish (),.doExit 2,
      .flush 1,.forkReturns 3 (some none)]
    let s := es.foldl next (initKprobes true (fun _ => 1) fun _ => 0)
    (NoneMissed s ↔ Admits next Few (initKprobes true (fun _ => 1) fun _ => 0) es) ∧
      (NoneMissed s → s.calls = s.owed) :=
  none_missed_iff true (fun _ => 1) (fun _ => 0) (by decide)

/-- The third task that exits at the same time on one CPU is missed. -/
example :
    let es : List (Event Unit (Fin 4)) := [.doExit 1,.switch () 2,.finish (),.doExit 2,.switch () 3,
      .finish (),.doExit 3]
    (es.foldl next (initKprobes true (fun _ => 1) fun _ => 0)).calls =
      [.procExit 1,.schedIn 1 2,.procExit 2,.schedIn 2 3] := by
  decide

end Main
end Runs
end PmuMin.Kretprobe
