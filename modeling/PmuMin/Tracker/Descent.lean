import PmuMin.Tracker.Hash
import PmuMin.Tracker.Stack
import PmuMin.Tracker.Hooks
import PmuMin.Library.Update

/-! No descendant is missed: a task that was registered, or forked by a tracked parent, stays
tracked until its own exit hook, whatever the rest of its process tree does. -/
namespace PmuMin
open Machine

/-- What a build owes to the tasks it was told of. An insertion makes its task tracked and no
other task untracked, and a removal leaves the tasks of other pids alone. -/
structure Retains {Task Id σ : Type} (pid : Task → Id) (T : Tracker Task σ) where
  Valid : σ → Prop
  valid_add : ∀ {s}, Valid s → ∀ task data, Valid (T.trackerAdd calm s task data).1
  valid_del : ∀ {s}, Valid s → ∀ task, Valid (T.trackerDel calm s task).1
  query_add : ∀ {s}, Valid s → ∀ task data,
    T.queryTracker calm (T.trackerAdd calm s task data).1 task = true
  query_add_of_query : ∀ {s}, Valid s → ∀ {t}, T.queryTracker calm s t = true →
    ∀ task data, T.queryTracker calm (T.trackerAdd calm s task data).1 t = true
  query_del_of_query : ∀ {s}, Valid s → ∀ {t}, T.queryTracker calm s t = true →
    ∀ {task}, pid t ≠ pid task → T.queryTracker calm (T.trackerDel calm s task).1 t = true

/-- The memory of a build with its history: the tasks that were registered or forked by a
tracked parent and whose exit hook has not run since. -/
structure Followed (Task σ : Type) where
  memory : σ
  due : Task → Bool

namespace Followed
variable {Task σ : Type} [DecidableEq Task]

/-- Nothing has happened yet. -/
def init (s : σ) : Followed Task σ := ⟨s,fun _ => false⟩

def step (T : Tracker Task σ) (p : Followed Task σ) (e : TreeEvent Task) : Followed Task σ where
  memory := e.step T p.memory
  due :=
    match e,e.named T p.memory with
    | .exit task,_ => Function.update p.due task false
    | _,some task => Function.update p.due task true
    | _,none => p.due

end Followed

section Runs
variable {Task Id σ : Type} [DecidableEq Task] {pid : Task → Id} {T : Tracker Task σ}
  (R : Retains pid T)

/-- Live tasks have pids of their own, and every task that is due lives and is tracked. -/
structure Retained (w : Tree Task) (p : Followed Task σ) : Prop where
  valid : R.Valid p.memory
  pids : ∀ t u, w.live t = true → w.live u = true → pid t = pid u → t = u
  live : ∀ t, p.due t = true → w.live t = true
  tracked : ∀ t, p.due t = true → T.queryTracker calm p.memory t = true

variable {R}

omit [DecidableEq Task] in
lemma Retained.init {w : Tree Task} {s : σ} (hs : R.Valid s)
    (hpid : ∀ t u, w.live t = true → w.live u = true → pid t = pid u → t = u) :
    Retained R w (Followed.init s) where
  valid := hs
  pids := hpid
  live _ ht := by cases ht
  tracked _ ht := by cases ht

lemma Retained.add {w : Tree Task} {p : Followed Task σ} (h : Retained R w p) {task : Task}
    (htask : w.live task = true) (data : Word) :
    Retained R w
      ⟨(T.trackerAdd calm p.memory task data).1,Function.update p.due task true⟩ where
  valid := R.valid_add h.valid task data
  pids := h.pids
  live := Update.all (P := fun t due => due = true → w.live t = true) (fun _ => htask) h.live
  tracked :=
    Update.all
      (P := fun t due => due = true →
        T.queryTracker calm (T.trackerAdd calm p.memory task data).1 t = true)
      (fun _ => R.query_add h.valid task data)
      fun _ ht => R.query_add_of_query h.valid (h.tracked _ ht) task data

lemma Retained.birth {w : Tree Task} {p : Followed Task σ} (h : Retained R w p) {child : Task}
    (hpid : ∀ t, w.live t = true → pid t ≠ pid child) (born : Task → Bool) :
    Retained R ⟨Function.update w.live child true,born⟩ p where
  valid := h.valid
  pids t u ht hu htu := by
    have hlive : ∀ v, Function.update w.live child true v = true → v = child ∨ w.live v = true :=
      Update.all (P := fun v l => l = true → v = child ∨ w.live v = true) (fun _ => .inl rfl)
        fun _ hv => .inr hv
    rcases hlive t ht with rfl | ht' <;> rcases hlive u hu with rfl | hu'
    · rfl
    · exact absurd htu.symm (hpid u hu')
    · exact absurd htu (hpid t ht')
    · exact h.pids t u ht' hu' htu
  live := Update.all (P := fun t l => p.due t = true → l = true) (fun _ => rfl) h.live
  tracked := h.tracked

/-- The exit hook of a live task takes no entry of another live task. -/
lemma Retained.exit {w : Tree Task} {p : Followed Task σ} (h : Retained R w p) {task : Task}
    (htask : w.live task = true) (born : Task → Bool) :
    Retained R ⟨Function.update w.live task false,born⟩
      ⟨(T.trackerDel calm p.memory task).1,Function.update p.due task false⟩ where
  valid := R.valid_del h.valid task
  pids t u ht hu htu := by
    have hlive : ∀ v, Function.update w.live task false v = true → w.live v = true :=
      Update.all (P := fun v l => l = true → w.live v = true) (fun hv => by cases hv) fun _ hv => hv
    exact h.pids t u (hlive t ht) (hlive u hu) htu
  live := Update.rel (R := fun _ due l => due = true → l = true) id h.live
  tracked := by
    refine (Function.forall_update_iff p.due fun t due => due = true →
      T.queryTracker calm (T.trackerDel calm p.memory task).1 t = true).mpr
      ⟨(fun ht => by cases ht),fun t hne ht => ?_⟩
    have hpid : pid t ≠ pid task := fun hp => hne (h.pids t task (h.live t ht) htask hp)
    exact R.query_del_of_query h.valid (h.tracked t ht) hpid

theorem Retained.step {w : Tree Task} {p : Followed Task σ} (h : Retained R w p)
    {e : TreeEvent Task} (he : w.Allows pid e) : Retained R (w.next e) (p.step T e) := by
  cases e with
  | register task data => exact h.add he data
  | fork parent child data =>
    obtain ⟨-,-,hpid⟩ := he
    have hb := h.birth hpid (Function.update w.born child true)
    cases hq : T.queryTracker calm p.memory parent with
    | true =>
      have ha := hb.add (Function.update_self child true w.live) data
      simpa [Followed.step,TreeEvent.step,TreeEvent.named,trackForkWrapper,hq,Tree.next] using ha
    | false =>
      simpa [Followed.step,TreeEvent.step,TreeEvent.named,trackForkWrapper,hq,Tree.next] using hb
  | exit task => exact h.exit he w.born

/-- At every point of a run over a process tree the tasks that are due are tracked. -/
theorem Retained.run {w : Tree Task} {p : Followed Task σ} (h : Retained R w p)
    {events : List (TreeEvent Task)} (hrun : Admits Tree.next (Tree.Allows pid) w events) :
    Retained R (events.foldl Tree.next w) (events.foldl (Followed.step T) p) := by
  induction events generalizing w p with
  | nil => exact h
  | cons e events ih => exact ih (h.step hrun.1) hrun.2

end Runs

/-- A removal takes an entry of its own pid, the others keep theirs. -/
def Hash.retains {Task : Type} (hash : Hash.Pid → Hash.Bucket) (pid : Task → Hash.Pid) :
    Retains pid (Hash.tracker hash pid) where
  Valid _ := True
  valid_add _ _ _ := trivial
  valid_del _ _ := trivial
  query_add {s} _ task data := by
    simp only [Hash.tracker]
    rw [Hash.queryTracker_eq hash pid calm rfl,Hash.dataOf_trackerAdd hash pid calm rfl,
      Function.update_self]
    rfl
  query_add_of_query {s} _ t ht task data := by
    simp only [Hash.tracker] at ht ⊢
    rw [Hash.queryTracker_eq hash pid calm rfl] at ht ⊢
    rw [Hash.dataOf_trackerAdd hash pid calm rfl]
    rcases eq_or_ne (pid t) (pid task) with hp | hp
    · rw [hp,Function.update_self]
      rfl
    · rwa [Function.update_of_ne hp]
  query_del_of_query {s} _ t ht task hp := by
    simp only [Hash.tracker] at ht ⊢
    rw [Hash.queryTracker_eq hash pid calm rfl] at ht ⊢
    rwa [Hash.dataOf_trackerDel,Function.update_of_ne hp]

namespace Stack
variable {Task : Type} [DecidableEq Task] {s : State Task} {t task : Task}

lemma queryTracker_trackerAdd {entry : Word} (he : s task = some entry) (data : Word) :
    queryTracker (trackerAdd s task data).1 task = true := by
  rw [trackerAdd_eq he,queryTracker_eq (Function.update_self ..),accepts_magicEntry]

lemma queryTracker_update_of_ne (hne : t ≠ task) (entry : Option Word) :
    queryTracker (Function.update s task entry) t = queryTracker s t := by
  simp only [queryTracker,getMagicEntry,Function.update_of_ne hne]

/-- A slot is written by the calls on its own task only. -/
def retains {Id : Type} (pid : Task → Id) : Retains pid (tracker : Tracker Task (State Task)) where
  Valid s := ∀ task, ∃ entry, s task = some entry
  valid_add {s} hs task data := by
    obtain ⟨entry,he⟩ := hs task
    simp only [tracker,trackerAdd_eq he]
    exact Update.all (P := fun _ o => ∃ entry, o = some entry) ⟨_,rfl⟩ hs
  valid_del {s} hs task := by
    obtain ⟨entry,he⟩ := hs task
    simp only [tracker,trackerDel_eq he]
    split
    · exact Update.all (P := fun _ o => ∃ entry, o = some entry) ⟨_,rfl⟩ hs
    · exact hs
  query_add hs task data := queryTracker_trackerAdd (hs task).choose_spec data
  query_add_of_query {s} hs t ht task data := by
    obtain ⟨entry,he⟩ := hs task
    rcases eq_or_ne t task with rfl | hne
    · exact queryTracker_trackerAdd he data
    · simp only [tracker,trackerAdd_eq he,queryTracker_update_of_ne hne]
      exact ht
  query_del_of_query {s} hs t ht task hp := by
    obtain ⟨entry,he⟩ := hs task
    have hne : t ≠ task := fun h => hp (congrArg pid h)
    simp only [tracker,trackerDel_eq he]
    split
    · rw [queryTracker_update_of_ne hne]
      exact ht
    · exact ht

end Stack

/-- Over any process tree, with the hash and with the stack tracker, every task that was
registered, or forked while its parent was tracked, is tracked until its own exit hook runs. -/
theorem no_descendant_missed {Task : Type} [DecidableEq Task] {pid : Task → Hash.Pid}
    {w : Tree Task} (hpid : ∀ t u, w.live t = true → w.live u = true → pid t = pid u → t = u)
    {events : List (TreeEvent Task)} (hrun : Admits Tree.next (Tree.Allows pid) w events) :
    (∀ (hash : Hash.Pid → Hash.Bucket) (s : Hash.State) (task : Task),
      let p := events.foldl (Followed.step (Hash.tracker hash pid)) (Followed.init s)
      p.due task = true → Hash.queryTracker hash pid calm p.memory task = true) ∧
    ∀ s : Stack.State Task, (∀ task, ∃ entry, s task = some entry) → ∀ task,
      let p := events.foldl (Followed.step Stack.tracker) (Followed.init s)
      p.due task = true → Stack.queryTracker p.memory task = true := by
  constructor
  · intro hash s task
    have h : Retained (Hash.retains hash pid) w (Followed.init s) := .init trivial hpid
    exact (h.run hrun).tracked task
  · intro s hs task
    have h : Retained (Stack.retains pid) w (Followed.init s) := .init hs hpid
    exact (h.run hrun).tracked task

/-- A registered task has a child and a grandchild and exits, and its pid is given to another
child of the child; the table also holds a stale entry of that pid. -/
theorem no_descendant_missed_generations :
    let pid : Fin 4 → Hash.Pid := fun t => if t = 3 then 0 else t.val
    let events : List (TreeEvent (Fin 4)) := [.register 0 16,.register 0 32,.fork 0 1 48,
      .fork 1 2 64,.exit 0,.fork 1 3 80,.exit 1]
    Hash.queryTracker (fun _ => 0) pid calm
        (events.foldl (Followed.step (Hash.tracker (fun _ => 0) pid))
          (Followed.init Hash.trackerInit)).memory 3 = true ∧
      Stack.queryTracker (events.foldl (Followed.step Stack.tracker)
        (Followed.init fun _ => some 0)).memory 2 = true := by
  intro pid events
  have h := @no_descendant_missed _ _ pid ⟨(· = 0),(· = 0)⟩ (by decide) events (by decide)
  exact ⟨h.1 (fun _ => 0) Hash.trackerInit 3 (by decide),
    h.2 (fun _ => some 0) (fun _ => ⟨0,rfl⟩) 2 (by decide)⟩

end PmuMin
