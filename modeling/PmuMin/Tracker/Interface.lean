import PmuMin.Library.Machine
import Mathlib.Logic.Function.Basic
import Mathlib.Data.Int.Notation

/-! The interface of `ptracker.h`, which the three builds of the Makefile's `TRACKER` variable
implement, and the two abstract trackers the builds are compared with. -/
namespace PmuMin

/-- `unsigned long`, and every pointer. -/
abbrev Word := BitVec 64

def NULL : Word := 0

def EINVAL : ℤ := 22
def ENOMEM : ℤ := 12

/-- What a call takes from its surroundings: the CPU it runs on, the outcome of the allocation
it may make and the outcome of the trylock it may try. -/
structure Context where
  cpu : ℕ
  alloc : Bool
  trylock : Bool
  deriving DecidableEq, Repr

/-- A build of the tracker over tasks `Task`, with the memory `σ` it keeps its entries in. -/
structure Tracker (Task σ : Type) where
  trackerAdd : Context → σ → Task → Word → σ × ℤ
  trackerDel : Context → σ → Task → σ × Word
  queryTracker : Context → σ → Task → Bool
  queryDataTracker : Context → σ → Task → Word

inductive Op (Task : Type)
  | add (task : Task) (data : Word)
  | del (task : Task)
  | query (task : Task)
  | queryData (task : Task)
  deriving DecidableEq, Repr

structure Call (Task : Type) where
  ctx : Context
  op : Op Task
  deriving DecidableEq, Repr

/-- The result of a call: an `int`, a `bool` or a `void *`. -/
inductive Result
  | code (err : ℤ)
  | flag (b : Bool)
  | pointer (data : Word)
  deriving DecidableEq, Repr

namespace Tracker
variable {Task σ : Type}

def step (T : Tracker Task σ) (s : σ) (c : Call Task) : σ × Result :=
  match c.op with
  | .add task data => let r := T.trackerAdd c.ctx s task data; (r.1,.code r.2)
  | .del task => let r := T.trackerDel c.ctx s task; (r.1,.pointer r.2)
  | .query task => (s,.flag (T.queryTracker c.ctx s task))
  | .queryData task => (s,.pointer (T.queryDataTracker c.ctx s task))

/-- The state after one call, its result dropped. -/
def next (T : Tracker Task σ) (s : σ) (c : Call Task) : σ := (T.step s c).1

/-- What the builds are for: a finite map from tasks to data. -/
def finiteMap (Task : Type) [DecidableEq Task] : Tracker Task (Task → Option Word) where
  trackerAdd _ m task data := (Function.update m task (some data),0)
  trackerDel _ m task := (Function.update m task none,(m task).getD NULL)
  queryTracker _ m task := (m task).isSome
  queryDataTracker _ m task := (m task).getD NULL

/-- One last-in-first-out stack of data for each identifier; insertion fails with the
allocation. -/
def lifo {Id : Type} [DecidableEq Id] (id : Task → Id) : Tracker Task (Id → List Word) where
  trackerAdd ctx m task data :=
    if ctx.alloc then (Function.update m (id task) (data :: m (id task)),0) else (m,-ENOMEM)
  trackerDel _ m task :=
    (Function.update m (id task) (m (id task)).tail,(m (id task)).headD NULL)
  queryTracker _ m task := !(m (id task)).isEmpty
  queryDataTracker _ m task := (m (id task)).headD NULL

end Tracker

/-- Bits 47 to 63 of the word are all equal. -/
def Canonical (d : Word) : Prop := ∀ i, 47 ≤ i → i < 64 → d.getLsbD i = d.getLsbD 47

instance : DecidablePred Canonical := fun d =>
  decidable_of_iff (∀ i : Fin 64, 47 ≤ i.val → d.getLsbD i.val = d.getLsbD 47)
    ⟨fun h i hi hl => h ⟨i,hl⟩ hi,fun h i hi => h i.val hi i.isLt⟩

theorem canonical_NULL : Canonical NULL := by decide

/-- A call of a disciplined run: `tracker_add` only on a task that is not tracked and with a
canonical pointer, and no allocation or trylock fails. -/
def Disciplined {Task : Type} (m : Task → Option Word) (c : Call Task) : Prop :=
  c.ctx.alloc = true ∧ c.ctx.trylock = true ∧
    match c.op with
    | .add task data => m task = none ∧ Canonical data
    | _ => True

instance {Task : Type} (m : Task → Option Word) : DecidablePred (Disciplined m)
  | ⟨ctx,.add task data⟩ => inferInstanceAs
      (Decidable (ctx.alloc = true ∧ ctx.trylock = true ∧ m task = none ∧ Canonical data))
  | ⟨ctx,.del _⟩ | ⟨ctx,.query _⟩ | ⟨ctx,.queryData _⟩ =>
    inferInstanceAs (Decidable (ctx.alloc = true ∧ ctx.trylock = true ∧ True))

end PmuMin
