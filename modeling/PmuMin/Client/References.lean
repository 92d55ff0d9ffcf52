import PmuMin.Tracker.Interface
import PmuMin.Library.Machine
import PmuMin.Library.Update

/-! The references that `processes_write` of `proc_processes.c` and `fork_handler` of
`system_hook_kprobe.c` take on the objects they look up. -/
namespace PmuMin.References
open Machine

/-- The references on each `struct pid` and each `task_struct`. -/
structure Refs (Pid Task : Type) where
  pid : Pid → ℕ
  task : Task → ℕ

/-- What the kernel's tables hold at a call: the `struct pid` of a number, and the task attached
to a `struct pid`. -/
structure Lookup (Pid Task : Type) where
  findVpid : BitVec 32 → Option Pid
  pidTask : Pid → Option Task

section Kernel
variable {Pid Task : Type} [DecidableEq Pid] [DecidableEq Task] (k : Lookup Pid Task)

/-- Takes a reference on the `struct pid` it finds. -/
def findGetPid (nr : BitVec 32) (r : Refs Pid Task) : Option Pid × Refs Pid Task :=
  match k.findVpid nr with
  | none => (none,r)
  | some pid => (some pid,{ r with pid := Update.tally r.pid (some pid) })

/-- Takes a reference on the task it returns. -/
def getPidTask (pid : Option Pid) (r : Refs Pid Task) : Option Task × Refs Pid Task :=
  match pid.bind k.pidTask with
  | none => (none,r)
  | some task => (some task,{ r with task := Update.tally r.task (some task) })

def putTaskStruct (task : Task) (r : Refs Pid Task) : Refs Pid Task :=
  { r with task := Function.update r.task task (r.task task - 1) }

/-- The `is_syscall_success` of the return value: no error code. -/
def isSyscallSuccess (retval : Word) : Bool := retval < BitVec.ofInt 64 (-4095)

/-- `processes_write`. The environment decides what `kstrtouint_from_user` returns and stores and
what `register_process` returns. -/
def processesWrite (kstrtouint : ℤ × BitVec 32) (registerProcess : Task → ℤ) (count : ℤ)
    (r : Refs Pid Task) : ℤ × Refs Pid Task :=
  let err := kstrtouint.1
  if err ≠ 0 then (err,r)
  else
    let pid := findGetPid k kstrtouint.2 r
    let task := getPidTask k pid.1 pid.2
    match task.1 with
    | none => (-EINVAL,task.2)
    | some t =>
      let err := registerProcess t
      if err ≠ 0 then (err,putTaskStruct t task.2)
      else (count,putTaskStruct t task.2)

/-- `fork_handler`, with the children that it passes to `hook_proc_fork`; `start` is what
`start_handler` returns. -/
def forkHandler (start : Bool) (retval : Word) (r : Refs Pid Task) :
    ℤ × List (Option Task) × Refs Pid Task :=
  if start then
    if isSyscallSuccess retval then
      let pid := findGetPid k (retval.setWidth 32) r
      let ntask := getPidTask k pid.1 pid.2
      (0,[ntask.1],ntask.2)
    else (0,[],r)
  else (0,[],r)

end Kernel

/-- A call, with the tables that it meets. -/
inductive Call (Pid Task : Type)
  | processesWrite (k : Lookup Pid Task) (kstrtouint : ℤ × BitVec 32)
    (registerProcess : Task → ℤ) (count : ℤ)
  | forkHandler (k : Lookup Pid Task) (start : Bool) (retval : Word)

namespace Call
variable {Pid Task : Type}

/-- The `struct pid` that the call finds. -/
def found : Call Pid Task → Option Pid
  | processesWrite k kstrtouint _ _ =>
    if kstrtouint.1 = 0 then k.findVpid kstrtouint.2 else none
  | forkHandler k start retval =>
    if start && isSyscallSuccess retval then k.findVpid (retval.setWidth 32) else none

/-- The task that the fork handler finds. -/
def child : Call Pid Task → Option Task
  | processesWrite .. => none
  | forkHandler k start retval => (forkHandler k start retval).found.bind k.pidTask

lemma child_eq_none {c : Call Pid Task} (h : c.found = none) : c.child = none := by
  cases c with
  | processesWrite => rfl
  | forkHandler k start retval => rw [child,h,Option.bind_none]

end Call

section Runs
variable {Pid Task : Type} [DecidableEq Pid] [DecidableEq Task]

def next (r : Refs Pid Task) : Call Pid Task → Refs Pid Task
  | .processesWrite k kstrtouint registerProcess count =>
    (processesWrite k kstrtouint registerProcess count r).2
  | .forkHandler k start retval => (forkHandler k start retval r).2.2

/-- The call leaves the references as they were. -/
def Balanced (r : Refs Pid Task) (c : Call Pid Task) : Prop := next r c = r

section Lookup
variable (k : Lookup Pid Task) (r : Refs Pid Task)

omit [DecidableEq Task] in
lemma findGetPid_eq (nr : BitVec 32) :
    findGetPid k nr r = (k.findVpid nr,{ r with pid := Update.tally r.pid (k.findVpid nr) }) := by
  rw [findGetPid]
  cases k.findVpid nr <;> rfl

omit [DecidableEq Pid] in
lemma getPidTask_eq (pid : Option Pid) :
    getPidTask k pid r =
      (pid.bind k.pidTask,{ r with task := Update.tally r.task (pid.bind k.pidTask) }) := by
  rw [getPidTask]
  cases pid.bind k.pidTask <;> rfl

lemma processesWrite_refs (kstrtouint : ℤ × BitVec 32) (registerProcess : Task → ℤ) (count : ℤ) :
    (processesWrite k kstrtouint registerProcess count r).2 = { r with
      pid := Update.tally r.pid (Call.processesWrite k kstrtouint registerProcess count).found } := by
  unfold processesWrite Call.found
  dsimp only
  by_cases herr : kstrtouint.1 = 0
  · rw [if_neg (not_not.mpr herr),if_pos herr,findGetPid_eq]
    dsimp only
    rw [getPidTask_eq]
    dsimp only
    cases htask : (k.findVpid kstrtouint.2).bind k.pidTask with
    | none => rfl
    | some t =>
      have hput : ∀ pid : Pid → ℕ, putTaskStruct t ⟨pid,Update.tally r.task (some t)⟩ = ⟨pid,r.task⟩ :=
        fun pid => congrArg (Refs.mk pid) (Update.update_tally_sub_one r.task t)
      dsimp only
      rw [hput]
      split <;> rfl
  · rw [if_pos herr,if_neg herr]
    rfl

lemma forkHandler_refs (start : Bool) (retval : Word) :
    let c : Call Pid Task := .forkHandler k start retval
    (forkHandler k start retval r).2.2 =
      ⟨Update.tally r.pid c.found,Update.tally r.task c.child⟩ := by
  dsimp only [forkHandler,Call.child,Call.found]
  cases start with
  | false => rfl
  | true =>
    rw [Bool.true_and]
    cases isSyscallSuccess retval with
    | false => rfl
    | true =>
      simp only [if_true]
      rw [findGetPid_eq]
      dsimp only
      rw [getPidTask_eq]

end Lookup

theorem next_eq (r : Refs Pid Task) (c : Call Pid Task) :
    next r c = ⟨Update.tally r.pid c.found,Update.tally r.task c.child⟩ := by
  cases c with
  | processesWrite k kstrtouint registerProcess count => exact processesWrite_refs ..
  | forkHandler k start retval => exact forkHandler_refs ..

theorem balanced_iff (r : Refs Pid Task) (c : Call Pid Task) : Balanced r c ↔ c.found = none := by
  rw [Balanced,next_eq]
  constructor
  · intro h
    exact Update.tally_eq_self_iff.mp (congrArg Refs.pid h)
  · intro h
    rw [h,Call.child_eq_none h]
    rfl

/-- The references add up: each object keeps one for every call that found it. -/
theorem foldl_next (r : Refs Pid Task) (calls : List (Call Pid Task)) :
    (∀ pid, (calls.foldl next r).pid pid =
      r.pid pid + calls.countP fun c => c.found = some pid) ∧
      ∀ task, (calls.foldl next r).task task =
        r.task task + calls.countP fun c => c.child = some task := by
  have hpid : calls.foldl (fun f c => Update.tally f c.found) r.pid = (calls.foldl next r).pid :=
    List.foldl_hom Refs.pid fun r c => congrArg Refs.pid (next_eq r c).symm
  have htask : calls.foldl (fun f c => Update.tally f c.child) r.task = (calls.foldl next r).task :=
    List.foldl_hom Refs.task fun r c => congrArg Refs.task (next_eq r c).symm
  constructor
  · intro pid
    rw [← hpid]
    exact Update.foldl_tally Call.found r.pid calls pid
  · intro task
    rw [← htask]
    exact Update.foldl_tally Call.child r.task calls task

theorem registration_keeps_pid :
    let k : Lookup Unit Unit := ⟨fun _ => some (),fun _ => some ()⟩
    let r : Refs Unit Unit := ⟨fun _ => 1,fun _ => 1⟩
    ¬ Admits next Balanced r [.processesWrite k (0,100) (fun _ => 0) 4] ∧
      ¬ Admits next Balanced r [.forkHandler k true 100] ∧
      (next r (.forkHandler k true 100)).task () = 2 := by
  intro k r
  refine ⟨fun h => ?_,fun h => ?_,by decide⟩
  · exact absurd ((balanced_iff _ _).mp h.1) (by decide)
  · exact absurd ((balanced_iff _ _).mp h.1) (by decide)

/-- The references are balanced after each call of exactly those runs in which no call finds a
`struct pid`. -/
theorem references_balanced_iff (r : Refs Pid Task) (calls : List (Call Pid Task)) :
    Admits next Balanced r calls ↔ ∀ c ∈ calls, c.found = none := by
  have hconst := admits_const_iff (P := fun c : Call Pid Task => c.found = none) next r calls
  rw [← hconst]
  exact admits_congr balanced_iff r calls

end Runs
end PmuMin.References
