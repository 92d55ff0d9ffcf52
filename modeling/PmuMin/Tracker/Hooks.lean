import PmuMin.Tracker.Interface
import Mathlib.Data.Fintype.Basic

/-! The hooks of `ptracker.c` over any build of the tracker, and the process trees whose forks
and exits call them. -/
namespace PmuMin

section Wrappers
variable {Task σ H : Type} (T : Tracker Task σ)

/-- `track_fork_wrapper`; `H` is what the callbacks act on. -/
def trackForkWrapper (hookOnAttach : H → H × Word) (ctx : Context) (s : H × σ)
    (parent child : Task) : H × σ :=
  if T.queryTracker ctx s.2 parent then
    let r := hookOnAttach s.1
    (r.1,(T.trackerAdd ctx s.2 child r.2).1)
  else s

/-- `track_exit_wrapper`. -/
def trackExitWrapper (hookOnDetach : H → Word → H) (ctx : Context) (s : H × σ) (p : Task) :
    H × σ :=
  let r := T.trackerDel ctx s.2 p
  (hookOnDetach s.1 r.2,r.1)

end Wrappers

/-- No allocation fails and no lock is contended. -/
def calm : Context := ⟨0,true,true⟩

/-- An event of a process tree that reaches the tracker, with the datum it hands in: a
registration, the fork hook and the exit hook. -/
inductive TreeEvent (Task : Type)
  | register (task : Task) (data : Word)
  | fork (parent child : Task) (data : Word)
  | exit (task : Task)
  deriving DecidableEq, Repr

namespace TreeEvent
variable {Task σ : Type}

def step (T : Tracker Task σ) (s : σ) : TreeEvent Task → σ
  | .register task data => (T.trackerAdd calm s task data).1
  | .fork parent child data =>
    (trackForkWrapper T (fun h : Unit => (h,data)) calm ((),s) parent child).2
  | .exit task => (trackExitWrapper T (fun (h : Unit) _ => h) calm ((),s) task).2

/-- The task an event adds to the tracker: the registered one, or the child of a tracked
parent. -/
def named (T : Tracker Task σ) (s : σ) : TreeEvent Task → Option Task
  | .register task _ => some task
  | .fork parent child _ => if T.queryTracker calm s parent then some child else none
  | .exit _ => none

end TreeEvent

/-- A process tree: the tasks that live and the tasks that have ever lived. -/
structure Tree (Task : Type) where
  live : Task → Bool
  born : Task → Bool

namespace Tree
variable {Task Id : Type} [DecidableEq Task]

def next (w : Tree Task) : TreeEvent Task → Tree Task
  | .register _ _ => w
  | .fork _ child _ => ⟨Function.update w.live child true,Function.update w.born child true⟩
  | .exit task => { w with live := Function.update w.live task false }

/-- Live tasks are registered, fork and exit; a child is a new task, with a pid that no live
task carries. -/
def Allows (pid : Task → Id) (w : Tree Task) : TreeEvent Task → Prop
  | .register task _ => w.live task = true
  | .fork parent child _ =>
    w.live parent = true ∧ w.born child = false ∧ ∀ t, w.live t = true → pid t ≠ pid child
  | .exit task => w.live task = true

instance [Fintype Task] [DecidableEq Id] (pid : Task → Id) (w : Tree Task) :
    DecidablePred (w.Allows pid) := fun e => by
  cases e <;> unfold Allows <;> infer_instance

end Tree
end PmuMin
