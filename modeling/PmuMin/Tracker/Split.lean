import PmuMin.Tracker.Ledger

/-! `tracker_del` of the hash and of the stack tracker, step by step, for the runs in which
something else happens between two steps. -/
namespace PmuMin
open Occurrences

/-- A tracker whose removals are split into steps over program points `R`; `busy` holds while a
removal has the tracker's lock. -/
structure SplitTracker (Task σ R : Type) extends Tracker Task σ where
  busy : σ → Bool
  start : R
  delStep : σ → Task → R → σ × (R ⊕ Word)

/-- A removal that nothing interrupts. -/
def SplitTracker.runDel {Task σ R : Type} (S : SplitTracker Task σ R) (s : σ) (task : Task) :
    ℕ → R → Option (σ × Word)
  | 0,_ => none
  | fuel+1,pc =>
    match S.delStep s task pc with
    | (s',.inl pc') => S.runDel s' task fuel pc'
    | (s',.inr data) => some (s',data)

/-- Run without interruption from a free lock, the steps of a removal are `tracker_del`. -/
def SplitTracker.Composes {Task σ R : Type} (S : SplitTracker Task σ R) : Prop :=
  ∀ ctx s task, S.busy s = false →
    ∃ fuel, S.runDel s task fuel S.start = some (S.trackerDel ctx s task)

namespace Hash
variable {Task : Type} (hash : Pid → Bucket) (pid : Task → Pid)

/-- Before the `spin_lock`, in the critical section and before the `spin_unlock`. -/
inductive DelPc
  | locking
  | searching
  | unlocking (data : Word)
  deriving DecidableEq, Repr

/-- The table and its lock; a query that finds the lock taken fails. -/
def splitTracker : SplitTracker Task (State × Bool) DelPc where
  trackerAdd ctx s task data :=
    let r := trackerAdd hash pid ctx s.1 task data
    ((r.1,s.2),r.2)
  trackerDel _ s task :=
    let r := trackerDel hash pid s.1 task
    ((r.1,s.2),r.2)
  queryTracker ctx s task := queryTracker hash pid { ctx with trylock := !s.2 } s.1 task
  queryDataTracker ctx s task := queryDataTracker hash pid { ctx with trylock := !s.2 } s.1 task
  busy s := s.2
  start := .locking
  delStep s task
    | .locking => ((s.1,true),.inl .searching)
    | .searching =>
      let r := trackerDel hash pid s.1 task
      ((r.1,s.2),.inl (.unlocking r.2))
    | .unlocking data => ((s.1,false),.inr data)

theorem runDel_eq (s : State) (task : Task) :
    (splitTracker hash pid).runDel (s,false) task 3 .locking =
      some (((trackerDel hash pid s task).1,false),(trackerDel hash pid s task).2) := rfl

theorem composes : (splitTracker hash pid).Composes := by
  rintro ctx ⟨s,locked⟩ task hbusy
  obtain rfl : locked = false := hbusy
  exact ⟨3,runDel_eq hash pid s task⟩

end Hash

namespace Stack
variable {Task : Type} [DecidableEq Task]

/-- Before `get_magic_entry`, before `get_patched_data` and before `restore_thread_stack`. -/
inductive DelPc
  | checking
  | reading
  | restoring (data : Word)
  deriving DecidableEq, Repr

def splitTracker : SplitTracker Task (State Task) DelPc where
  toTracker := tracker
  busy _ := false
  start := .checking
  delStep s task
    | .checking =>
      (s,match getMagicEntry s task with
        | none => .inr NULL
        | some _ => .inl .reading)
    | .reading => (s,.inl (.restoring (getPatchedData s task)))
    | .restoring data => ((restoreThreadStack s (some task)).1,.inr data)

theorem runDel_eq (s : State Task) (task : Task) :
    splitTracker.runDel s task 3 .checking = some (trackerDel s task) := by
  unfold trackerDel
  cases h : getMagicEntry s task <;> simp [SplitTracker.runDel,splitTracker,h]

theorem composes : (splitTracker : SplitTracker Task (State Task) DelPc).Composes :=
  fun _ s task _ => ⟨3,runDel_eq s task⟩

end Stack

/-- The data of a split tracker, counted, with `carries` the datum that a removal under way has
taken out of the tracker. -/
structure SplitLedger {Task σ R : Type} (S : SplitTracker Task σ R) where
  Valid : σ → Prop
  held : σ → Word → ℕ
  carries : σ → Task → R → Word
  valid_add : ∀ {s}, Valid s → ∀ ctx task data, Valid (S.trackerAdd ctx s task data).1
  valid_del : ∀ {s}, Valid s → ∀ task pc, Valid (S.delStep s task pc).1
  carries_start : ∀ s task, carries s task S.start = NULL
  add_self : ∀ {s}, Valid s → ∀ ctx task pc {data a}, Canonical data → a ≠ NULL →
    held (S.trackerAdd ctx s task data).1 a +
        hit (carries (S.trackerAdd ctx s task data).1 task pc) a ≤
      held s a + hit (carries s task pc) a + hit data a
  add_other : ∀ ctx s {task task'}, task' ≠ task → ∀ data pc,
    carries (S.trackerAdd ctx s task data).1 task' pc = carries s task' pc
  del_self : ∀ {s}, Valid s → ∀ task pc {a}, a ≠ NULL →
    held (S.delStep s task pc).1 a +
        hit ((S.delStep s task pc).2.elim (carries (S.delStep s task pc).1 task) id) a ≤
      held s a + hit (carries s task pc) a
  del_other : ∀ s {task task'}, task' ≠ task → ∀ pc pc',
    carries (S.delStep s task pc).1 task' pc' = carries s task' pc'
  held_query : ∀ {s}, Valid s → ∀ ctx task, S.queryDataTracker ctx s task ≠ NULL →
    0 < held s (S.queryDataTracker ctx s task)

namespace Hash
variable {Task : Type} (hash : Pid → Bucket) (pid : Task → Pid)

/-- The datum of an unlinked node. -/
def carries : DelPc → Word
  | .unlocking data => data
  | _ => NULL

theorem held_queryDataTracker (ctx : Context) (s : State) (task : Task)
    (hq : queryDataTracker hash pid ctx s task ≠ NULL) :
    0 < held s (queryDataTracker hash pid ctx s task) := by
  have hfirst := (queryDataTracker_cases hash pid ctx s task).resolve_left hq
  rw [hfirst] at hq ⊢
  exact (ledger hash pid).held_first trivial hq

def splitLedger : SplitLedger (splitTracker hash pid) where
  Valid _ := True
  held s := held s.1
  carries _ _ := carries
  valid_add _ _ _ _ := trivial
  valid_del _ _ _ := trivial
  carries_start _ _ := rfl
  add_self {s} _ ctx task pc data a hdata ha := by
    have hadd := (ledger hash pid).held_add_le (s := s.1) trivial ctx task hdata ha
    change held (trackerAdd hash pid ctx s.1 task data).1 a + _ ≤ held s.1 a + _ + _
    change held (trackerAdd hash pid ctx s.1 task data).1 a ≤ held s.1 a + _ at hadd
    omega
  add_other _ _ _ _ _ _ _ := rfl
  del_self {s} _ task pc a ha := by
    cases pc with
    | locking => exact le_refl _
    | searching =>
      have hdel := held_trackerDel hash pid s.1 task ha
      rw [← trackerDel_snd] at hdel
      exact Nat.le_add_right_of_le hdel.le
    | unlocking data => exact le_refl _
  del_other _ _ _ _ _ _ := rfl
  held_query {s} _ ctx task hq := held_queryDataTracker hash pid _ s.1 task hq

end Hash

namespace Stack
variable {Task : Type} [DecidableEq Task]

/-- A datum that was read and that the slot no longer decodes to. -/
def carries (s : State Task) (task : Task) : DelPc → Word
  | .restoring data => if getPatchedData s task = data then NULL else data
  | _ => NULL

lemma getPatchedData_of_ne {s : State Task} {task task' : Task} (h : task' ≠ task)
    (entry : Option Word) :
    getPatchedData (Function.update s task entry) task' = getPatchedData s task' := by
  simp only [getPatchedData,getMagicEntry,Function.update_of_ne h]

theorem getPatchedData_restore (s : State Task) (task : Task) :
    getPatchedData (restoreThreadStack s (some task)).1 =
      Function.update (getPatchedData s) task NULL := by
  cases h : s task with
  | none =>
    simp only [restoreThreadStack,h]
    rw [← getPatchedData_of_none h]
    exact (Function.update_eq_self ..).symm
  | some entry =>
    simp only [restoreThreadStack,h]
    rw [getPatchedData_update]
    simp

theorem supported_delStep {s : State Task} (hs : Supported NULL (getPatchedData s)) (task : Task)
    (pc : DelPc) : Supported NULL (getPatchedData (splitTracker.delStep s task pc).1) := by
  cases pc with
  | checking | reading => exact hs
  | restoring data =>
    simp only [splitTracker,getPatchedData_restore]
    exact hs.update task NULL

lemma hit_carries_le {a : Word} (ha : a ≠ NULL) (v data : Word) :
    hit (if v = data then NULL else data) a ≤ hit data a := by
  split
  · rw [hit_of_ne ha.symm]
    exact Nat.zero_le _
  · exact le_refl _

/-- What a slot loses to an insertion, the removal under way still carries. -/
theorem add_self {s : State Task} (hs : Supported NULL (getPatchedData s)) (task : Task)
    (pc : DelPc) {data a : Word} (hdata : Canonical data) (ha : a ≠ NULL) :
    held (trackerAdd s task data).1 a + hit (carries (trackerAdd s task data).1 task pc) a ≤
      held s a + hit (carries s task pc) a + hit data a := by
  have hadd := held_trackerAdd hs task hdata ha
  cases pc with
  | checking | reading => simp only [carries]; split at hadd <;> omega
  | restoring read =>
    simp only [carries]
    cases h : s task with
    | none =>
      simp only [trackerAdd_of_none h]
      omega
    | some entry =>
      rw [h] at hadd
      simp only [Option.isSome_some,if_true] at hadd
      have hle := hit_carries_le ha (getPatchedData (trackerAdd s task data).1 task) read
      by_cases hread : getPatchedData s task = read
      · rw [if_pos hread,hit_of_ne ha.symm]
        rw [hread] at hadd
        omega
      · rw [if_neg hread]
        omega

theorem del_self {s : State Task} (hs : Supported NULL (getPatchedData s)) (task : Task)
    (pc : DelPc) {a : Word} (ha : a ≠ NULL) :
    held (splitTracker.delStep s task pc).1 a +
        hit ((splitTracker.delStep s task pc).2.elim
          (carries (splitTracker.delStep s task pc).1 task) id) a ≤
      held s a + hit (carries s task pc) a := by
  cases pc with
  | checking =>
    simp only [splitTracker]
    cases getMagicEntry s task <;> exact le_refl _
  | reading => simp [splitTracker,carries]
  | restoring data =>
    have hcount := count_update hs ha task NULL
    rw [← getPatchedData_restore,hit_of_ne ha.symm] at hcount
    simp only [splitTracker,carries,Sum.elim_inr,id_eq,held]
    by_cases hdata : getPatchedData s task = data
    · rw [if_pos hdata,hit_of_ne ha.symm]
      rw [hdata] at hcount
      omega
    · rw [if_neg hdata]
      omega

omit [DecidableEq Task] in
lemma carries_congr {s s' : State Task} {task : Task}
    (h : getPatchedData s' task = getPatchedData s task) (pc : DelPc) :
    carries s' task pc = carries s task pc := by
  cases pc <;> simp [carries,h]

noncomputable def splitLedger : SplitLedger (splitTracker : SplitTracker Task (State Task) DelPc) where
  Valid s := Supported NULL (getPatchedData s)
  held := held
  carries := carries
  valid_add hs _ := supported_trackerAdd hs
  valid_del hs := supported_delStep hs
  carries_start _ _ := rfl
  add_self hs _ task pc _ _ hdata ha := add_self hs task pc hdata ha
  add_other _ s task task' hne data pc := by
    refine carries_congr ?_ pc
    cases h : s task with
    | none => exact congrArg (getPatchedData · task') (congrArg Prod.fst (trackerAdd_of_none h data))
    | some entry =>
      change getPatchedData (trackerAdd s task data).1 task' = _
      rw [trackerAdd_eq h,getPatchedData_of_ne hne]
  del_self hs task pc _ ha := del_self hs task pc ha
  del_other s task task' hne pc pc' := by
    refine carries_congr ?_ pc'
    cases pc with
    | checking | reading => rfl
    | restoring data =>
      change getPatchedData (restoreThreadStack s (some task)).1 task' = _
      rw [getPatchedData_restore,Function.update_of_ne hne]
  held_query {s} hs ctx task hq := (ledger.held_first hs hq : 0 < held s (getPatchedData s task))

end Stack

/-- The two builds, each in a state it starts in. -/
inductive SplitStarts {Task : Type} [DecidableEq Task] :
    {σ R : Type} → {S : SplitTracker Task σ R} → SplitLedger S → σ → Prop
  | hash (hash : Hash.Pid → Hash.Bucket) (pid : Task → Hash.Pid) :
    SplitStarts (Hash.splitLedger hash pid) (Hash.trackerInit,false)
  | stack {s : Stack.State Task} (hs : Stack.Unpatched s) : SplitStarts Stack.splitLedger s

section SplitStarts
variable {Task σ R : Type} [DecidableEq Task] {S : SplitTracker Task σ R} {L : SplitLedger S}
  {s : σ}

theorem SplitStarts.valid (h : SplitStarts L s) : L.Valid s := by
  cases h with
  | hash => trivial
  | stack hs => exact (Starts.stack hs).valid

theorem SplitStarts.held (h : SplitStarts L s) {a : Word} (ha : a ≠ NULL) : L.held s a = 0 := by
  cases h with
  | hash => exact Hash.held_trackerInit a
  | stack hs => exact (Starts.stack hs).held ha

end SplitStarts
end PmuMin
