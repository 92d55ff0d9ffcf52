import PmuMin.Tracker.Hash
import PmuMin.Tracker.Hooks
import PmuMin.Library.Update

/-! Whether an entry of the hash tracker outlives its task. Insertion does not look for an entry
of the same pid and deletion stops at the first match, so a pid that was added twice keeps an
entry after the exit of its task. -/
namespace PmuMin.Hash
open Machine

variable {Task : Type} (hash : Pid → Bucket) (pid : Task → Pid)

/-- The table with its history: how often a pid was added since its last exit hook, and whether
its last event was an exit hook. -/
structure Traced where
  table : State
  adds : Pid → ℕ
  exited : Pid → Bool

/-- The empty table, nothing having happened. -/
def Traced.init : Traced := ⟨trackerInit,fun _ => 0,fun _ => false⟩

def Traced.step (p : Traced) (e : TreeEvent Task) : Traced where
  table := e.step (tracker hash pid) p.table
  adds :=
    match e,e.named (tracker hash pid) p.table with
    | .exit task,_ => Function.update p.adds (pid task) 0
    | _,some task => Function.update p.adds (pid task) (p.adds (pid task) + 1)
    | _,none => p.adds
  exited :=
    match e,e.named (tracker hash pid) p.table with
    | .exit task,_ => Function.update p.exited (pid task) true
    | _,some task => Function.update p.exited (pid task) false
    | _,none => p.exited

/-- After the step no task is reported tracked whose pid has seen an exit hook and has not been
added since. -/
def Forgets (p : Traced) (e : TreeEvent Task) : Prop :=
  ∀ task, (p.step hash pid e).exited (pid task) = true →
    queryTracker hash pid calm (p.step hash pid e).table task = false

/-- An exit hook finds its pid added at most once since the pid's previous exit hook. -/
def AddedOnce (p : Traced) : TreeEvent Task → Prop
  | .exit task => p.adds (pid task) ≤ 1
  | _ => True

/-- The stack of a pid is as deep as the number of adds since its last exit hook. -/
structure Counted (p : Traced) : Prop where
  depth : ∀ id, (dataOf hash p.table id).length = p.adds id
  exited : ∀ id, p.exited id = true → p.adds id = 0

theorem counted_init : Counted hash Traced.init := ⟨fun _ => rfl,fun _ h => by cases h⟩

lemma queryTracker_eq_false_iff (s : State) (task : Task) :
    queryTracker hash pid calm s task = false ↔ (dataOf hash s (pid task)).length = 0 := by
  rw [queryTracker_eq hash pid calm rfl]
  cases dataOf hash s (pid task) <;> simp

/-- The stacks after one event. -/
theorem dataOf_step (s : State) (e : TreeEvent Task) :
    dataOf hash (e.step (tracker hash pid) s) =
      match e,e.named (tracker hash pid) s with
      | .exit task,_ =>
        Function.update (dataOf hash s) (pid task) (dataOf hash s (pid task)).tail
      | .register _ data,some task | .fork _ _ data,some task =>
        Function.update (dataOf hash s) (pid task) (data :: dataOf hash s (pid task))
      | _,none => dataOf hash s := by
  cases e with
  | register task data =>
    simp only [TreeEvent.step,TreeEvent.named,tracker,dataOf_trackerAdd hash pid calm rfl]
  | fork parent child data =>
    by_cases hq : queryTracker hash pid calm s parent = true
    · simp only [TreeEvent.step,TreeEvent.named,trackForkWrapper,tracker,hq,if_true,
        dataOf_trackerAdd hash pid calm rfl]
    · simp [TreeEvent.step,TreeEvent.named,trackForkWrapper,tracker,hq]
  | exit task =>
    simp only [TreeEvent.step,trackExitWrapper,tracker,dataOf_trackerDel]

lemma step_of_named {p : Traced} {e : TreeEvent Task} {task : Task}
    (he : e.named (tracker hash pid) p.table = some task) :
    (∃ data, dataOf hash (p.step hash pid e).table =
      Function.update (dataOf hash p.table) (pid task) (data :: dataOf hash p.table (pid task))) ∧
    (p.step hash pid e).adds = Function.update p.adds (pid task) (p.adds (pid task) + 1) ∧
    (p.step hash pid e).exited = Function.update p.exited (pid task) false := by
  have hd := dataOf_step hash pid p.table e
  cases e with
  | register t data | fork _ t data =>
    simp only [he] at hd
    exact ⟨⟨data,hd⟩,by simp only [Traced.step,he],by simp only [Traced.step,he]⟩
  | exit t => cases he

lemma step_fork_of_untracked {p : Traced} {parent child : Task} {data : Word}
    (he : TreeEvent.named (tracker hash pid) p.table (.fork parent child data) = none) :
    dataOf hash (p.step hash pid (.fork parent child data)).table = dataOf hash p.table ∧
    (p.step hash pid (.fork parent child data)).adds = p.adds ∧
    (p.step hash pid (.fork parent child data)).exited = p.exited := by
  have hd := dataOf_step hash pid p.table (.fork parent child data)
  simp only [he] at hd
  exact ⟨hd,by simp only [Traced.step,he],by simp only [Traced.step,he]⟩

lemma counted_update {p q : Traced} (h : Counted hash p) {id : Pid} {data : List Word}
    {n : ℕ} {gone : Bool} (hd : dataOf hash q.table = Function.update (dataOf hash p.table) id data)
    (hadds : q.adds = Function.update p.adds id n)
    (hexited : q.exited = Function.update p.exited id gone)
    (hlen : data.length = n) (hgone : gone = true → n = 0) : Counted hash q where
  depth := by
    rw [hd,hadds]
    exact Update.rel (R := fun _ data n => List.length data = n) hlen h.depth
  exited := by
    rw [hadds,hexited]
    exact Update.rel (R := fun _ gone n => gone = true → n = 0) hgone h.exited

theorem counted_step {p : Traced} (h : Counted hash p) (e : TreeEvent Task)
    (ha : AddedOnce pid p e) : Counted hash (p.step hash pid e) := by
  cases hn : e.named (tracker hash pid) p.table with
  | some task =>
    obtain ⟨⟨data,hd⟩,hadds,hex⟩ := step_of_named hash pid hn
    refine counted_update hash h hd hadds hex ?_ (fun hfalse => by cases hfalse)
    rw [List.length_cons,h.depth]
  | none =>
    cases e with
    | register task data => cases hn
    | fork parent child data =>
      obtain ⟨hd,hadds,hex⟩ := step_fork_of_untracked hash pid hn
      exact ⟨fun id => by rw [hd,hadds,h.depth],fun id => by rw [hadds,hex]; exact h.exited id⟩
    | exit task =>
      have hle : p.adds (pid task) ≤ 1 := ha
      refine counted_update hash h (dataOf_step hash pid p.table (.exit task)) rfl rfl ?_
        fun _ => rfl
      rw [List.length_tail,h.depth]
      omega

/-- Where every pid is counted, an event leaves no entry behind exactly if it is no exit hook of
a pid that was added twice. -/
theorem forgets_iff {p : Traced} (h : Counted hash p) (e : TreeEvent Task) :
    Forgets hash pid p e ↔ AddedOnce pid p e := by
  constructor
  · intro hf
    cases e with
    | register task data | fork _ task data => trivial
    | exit task =>
      have hq := hf task (by simp [Traced.step])
      rw [queryTracker_eq_false_iff] at hq
      change (dataOf hash (TreeEvent.step (tracker hash pid) p.table (.exit task)) _).length = 0
        at hq
      simp only [dataOf_step,Function.update_self,List.length_tail,h.depth] at hq
      change p.adds (pid task) ≤ 1
      omega
  · intro ha task hex
    have hc := counted_step hash pid h e ha
    rw [queryTracker_eq_false_iff,hc.depth]
    exact hc.exited _ hex

/-- Exactly which runs leave no entry behind: those in which each exit hook finds its pid added
at most once, by a registration or by a fork hook, since the pid's previous exit hook. -/
theorem no_entry_survives_iff (events : List (TreeEvent Task)) :
    Admits (Traced.step hash pid) (Forgets hash pid) Traced.init events ↔
      Admits (Traced.step hash pid) (AddedOnce pid) Traced.init events :=
  admits_iff_of_invariant (fun _ e hp => forgets_iff hash pid hp e)
    (fun _ e hp ha => counted_step hash pid hp e ha) events (counted_init hash)

/-- A task is registered twice and exits; a child of another, untracked task then gets its pid
and is reported tracked. -/
theorem registered_twice_survives :
    let pid : Fin 3 → Pid := fun t => if t = 0 then 1 else 100
    let events : List (TreeEvent (Fin 3)) :=
      [.register 1 0x1000,.register 1 0x2000,.exit 1,.fork 0 2 0x3000]
    Admits Tree.next (Tree.Allows pid) ⟨(· ≠ 2),(· ≠ 2)⟩ events ∧
      ¬ Admits (Traced.step (fun _ => 0) pid) (Forgets (fun _ => 0) pid) Traced.init events ∧
      queryTracker (fun _ => 0) pid calm
        (events.foldl (Traced.step (fun _ => 0) pid) Traced.init).table 2 = true := by
  intro pid events
  refine ⟨by decide,fun h => ?_,by decide⟩
  exact absurd (h.2.2.1 1 (by decide)) (by decide)

end PmuMin.Hash
