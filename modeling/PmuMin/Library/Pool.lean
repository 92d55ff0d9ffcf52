import Mathlib.Data.Multiset.Count
import Mathlib.Logic.Relation

/-! Pools of threads over a shared memory. The threads run one program and have no identity, so
a pool holds the multiset of their local states and any number of them may be under way. -/
namespace Pool
variable {G L : Type*}

/-- A state: the shared memory and where the threads stand. -/
structure State (G L : Type*) where
  shared : G
  threads : Multiset L

/-- The atomic steps of a thread and of the environment; `start` is where a thread begins. -/
structure Program (G L : Type*) where
  start : L
  thread : G → L → Option (G × L)
  environment : G → G → Prop

/-- One step of any one participant. -/
inductive Step (P : Program G L) : State G L → State G L → Prop
  | spawn (g : G) (ts : Multiset L) : Step P ⟨g,ts⟩ ⟨g,P.start ::ₘ ts⟩
  | thread {g g' : G} {l l' : L} (ts : Multiset L) (h : P.thread g l = some (g',l')) :
      Step P ⟨g,l ::ₘ ts⟩ ⟨g',l' ::ₘ ts⟩
  | environment {g g' : G} (ts : Multiset L) (h : P.environment g g') : Step P ⟨g,ts⟩ ⟨g',ts⟩

/-- The states of the runs all of whose steps meet a condition. -/
def Reachable (P : Program G L) (allowed : State G L → State G L → Prop) :
    State G L → State G L → Prop :=
  Relation.ReflTransGen fun p q => Step P p q ∧ allowed p q

/-- The states of all runs. -/
abbrev Reaches (P : Program G L) : State G L → State G L → Prop := Reachable P fun _ _ => True

theorem Reachable.invariant {P : Program G L} {allowed : State G L → State G L → Prop}
    {I : State G L → Prop} (hstep : ∀ p q, I p → Step P p q → allowed p q → I q)
    {p q : State G L} (h : Reachable P allowed p q) (hp : I p) : I q := by
  induction h with
  | refl => exact hp
  | tail _ hs ih => exact hstep _ _ ih hs.1 hs.2

end Pool
