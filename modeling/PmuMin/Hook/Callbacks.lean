/-! The callbacks of `system_hook.c` and the two switches next to them. -/
namespace PmuMin

/-- `enum hook_type`. -/
inductive HookType
  | schedIn
  | schedOut
  | procExec
  | procExit
  | procFork
  | procFree
  | onAttach
  | onDetach
  deriving DecidableEq, Repr

/-- What a hook pointer holds: the dummy of its kind or a function that was installed. -/
inductive Callback (F : Type)
  | dummy
  | installed (f : F)
  deriving DecidableEq, Repr

structure Shook (F : Type) where
  hookSchedIn : Callback F
  hookProcFork : Callback F
  hookProcExit : Callback F
  hookOnAttach : Callback F
  hookOnDetach : Callback F
  shookEnabled : Bool
  systemWideMode : Bool
  deriving DecidableEq, Repr

variable {F : Type}

/-- `assign_hook`; a NULL hook stands for the dummy. -/
def assignHook : Option F → Callback F
  | some hook => .installed hook
  | none => .dummy

namespace Shook

/-- The other hook types are reported and skipped. -/
def setShookCallback (hook : Option F) (type : HookType) (s : Shook F) : Shook F :=
  match type with
  | .schedIn => { s with hookSchedIn := assignHook hook }
  | .procFork => { s with hookProcFork := assignHook hook }
  | .procExit => { s with hookProcExit := assignHook hook }
  | .onAttach => { s with hookOnAttach := assignHook hook }
  | .onDetach => { s with hookOnDetach := assignHook hook }
  | _ => s

def switchHookSetStateEnable (state : Bool) (s : Shook F) : Shook F :=
  { s with shookEnabled := state }

def switchHookSetSystemWideMode (mode : Bool) (s : Shook F) : Shook F :=
  { s with systemWideMode := mode }

/-- The same callbacks among more functions. -/
def map {G : Type} (f : F → G) (s : Shook F) : Shook G :=
  let hook : Callback F → Callback G
    | .dummy => .dummy
    | .installed h => .installed (f h)
  { hookSchedIn := hook s.hookSchedIn
    hookProcFork := hook s.hookProcFork
    hookProcExit := hook s.hookProcExit
    hookOnAttach := hook s.hookOnAttach
    hookOnDetach := hook s.hookOnDetach
    shookEnabled := s.shookEnabled
    systemWideMode := s.systemWideMode }

end Shook
end PmuMin
