import Mathlib.Data.Int.Notation

/-! The execution context of kernel code on one CPU, and the operations that switch interrupts and
preemption. -/
namespace ExecContext

/-- Whether interrupts are enabled, and how deeply preemption is disabled. -/
structure Exec where
  irqs : Bool
  preempt : ℤ
  deriving DecidableEq, Repr

namespace Exec
variable (e : Exec)

def preemptDisable : Exec := { e with preempt := e.preempt + 1 }
def preemptEnable : Exec := { e with preempt := e.preempt - 1 }

def localIrqEnable : Exec := { e with irqs := true }
def localIrqDisable : Exec := { e with irqs := false }

/-- Disables interrupts and returns the flags to restore. -/
def localIrqSave : Bool × Exec := (e.irqs,e.localIrqDisable)
def localIrqRestore (flags : Bool) : Exec := { e with irqs := flags }

def spinLockIrqsave : Bool × Exec :=
  let r := e.localIrqSave
  (r.1,r.2.preemptDisable)

/-- The flags, where the lock was `free` to be taken. -/
def spinTrylockIrqsave (free : Bool) : Option Bool × Exec :=
  let r := e.localIrqSave
  if free then (some r.1,r.2.preemptDisable) else (none,r.2.localIrqRestore r.1)

def spinUnlockIrqrestore (flags : Bool) : Exec := (e.localIrqRestore flags).preemptEnable

@[simp] theorem preemptEnable_preemptDisable : e.preemptDisable.preemptEnable = e := by
  simp [preemptDisable,preemptEnable]

@[simp] theorem preemptDisable_preemptEnable : e.preemptEnable.preemptDisable = e := by
  simp [preemptDisable,preemptEnable]

theorem localIrqRestore_localIrqSave : e.localIrqSave.2.localIrqRestore e.localIrqSave.1 = e := rfl

theorem spinUnlockIrqrestore_spinLockIrqsave :
    e.spinLockIrqsave.2.spinUnlockIrqrestore e.spinLockIrqsave.1 = e :=
  e.preemptEnable_preemptDisable

theorem localIrqDisable_eq_self_iff : e.localIrqDisable = e ↔ e.irqs = false := by
  obtain ⟨irqs,preempt⟩ := e
  simp [localIrqDisable,eq_comm]

end Exec
end ExecContext
