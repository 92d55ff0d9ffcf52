import PmuMin.Tracker.Hash
import PmuMin.Tracker.Hooks
import PmuMin.Library.Update

/-! The hooks of `system_hook_kprobe.c` over the hash tracker. The fork handler runs in the parent
once the child can run, so the child may have exited, or be gone, before it. The probes are
enabled throughout. -/
namespace PmuMin.Kprobe
open Machine Hash

variable {Task : Type}

/-- The tracker and the task each pid names, up to the reaping of the task; and the history: the
tasks born so far, the parent of each forked one, whose fork and exit handlers have run, what
`hook_on_attach` produced for a task and its exit has not passed on to `hook_on_detach`, and
whether the node for a datum other than NULL could not be allocated. -/
structure Config (Task : Type) where
  tracker : Hash.State
  owner : Pid → Option Task
  born : Task → Bool
  parent : Task → Option Task
  forkRan : Task → Bool
  exitRan : Task → Bool
  owed : Task → List Word
  lost : Task → Bool

/-- `_do_fork` makes a child, the two handlers run, and an exited task is reaped. -/
inductive Event (Task : Type)
  | spawn (parent child : Task)
  | forkHandler (child : Task) (data : Word) (ctx : Context)
  | exitEntryHandler (task : Task)
  | reap (task : Task)
  deriving DecidableEq, Repr

/-- `get_pid_task(find_get_pid(retval), PIDTYPE_PID)`. -/
def getPidTask (c : Config Task) (retval : Pid) : Option Task := c.owner retval

section Step
variable [DecidableEq Task] (hash : Pid → Bucket) (pid : Task → Pid)

/-- `fork_handler` in the parent of a new child. A NULL child is passed on all the same, and
`tracker_add` dereferences it; only the call is modelled then. -/
def forkHandler (c : Config Task) (current child : Task) (data : Word) (ctx : Context) :
    Config Task :=
  let c' := { c with forkRan := Function.update c.forkRan child true }
  match getPidTask c (pid child) with
  | none => c'
  | some ntask =>
    let hookOnAttach := fun owed : Task → List Word =>
      (Function.update owed child (data :: owed child),data)
    let r := trackForkWrapper (Hash.tracker hash pid) hookOnAttach ctx (c.owed,c.tracker)
      current ntask
    { c' with
      tracker := r.2
      owed := r.1
      lost :=
        if queryTracker hash pid ctx c.tracker current && !ctx.alloc && data != NULL then
          Function.update c.lost child true
        else c.lost }

/-- `exit_entry_handler` in the exiting task. -/
def exitEntryHandler (c : Config Task) (current : Task) : Config Task :=
  let hookOnDetach := fun (owed : Task → List Word) (data : Word) =>
    Function.update owed current ((owed current).erase data)
  let r := trackExitWrapper (Hash.tracker hash pid) hookOnDetach calm (c.owed,c.tracker) current
  { c with tracker := r.2, owed := r.1, exitRan := Function.update c.exitRan current true }

def next (c : Config Task) : Event Task → Config Task
  | .spawn parent child =>
    { c with
      owner := Function.update c.owner (pid child) (some child)
      born := Function.update c.born child true
      parent := Function.update c.parent child (some parent) }
  | .forkHandler child data ctx =>
    match c.parent child with
    | none => c
    | some parent => forkHandler hash pid c parent child data ctx
  | .exitEntryHandler task => exitEntryHandler hash pid c task
  | .reap task => { c with owner := Function.update c.owner (pid task) none }

omit [DecidableEq Task] in
/-- A live task forks a new one with an unused pid and runs the handler for it once; a task exits
once and is reaped afterwards. -/
def Allows (c : Config Task) : Event Task → Prop
  | .spawn parent child => (c.born parent = true ∧ c.exitRan parent = false) ∧
      c.born child = false ∧ c.owner (pid child) = none
  | .forkHandler child _ _ => c.forkRan child = false ∧
      ∃ parent, c.parent child = some parent ∧ c.exitRan parent = false
  | .exitEntryHandler task => c.born task = true ∧ c.exitRan task = false
  | .reap task => c.exitRan task = true ∧ c.owner (pid task) = some task

omit [DecidableEq Task] in
/-- `hook_proc_fork` is not given a NULL child. -/
def GivesChild (c : Config Task) : Event Task → Prop
  | .forkHandler child _ _ => (getPidTask c (pid child)).isSome = true
  | _ => True

omit [DecidableEq Task] in
/-- A child both of whose handlers have run is not tracked, as long as its pid does not name
another task, and all its data have been passed to `hook_on_detach`. -/
def Cleared (c : Config Task) : Prop :=
  ∀ t, (c.parent t).isSome = true → c.forkRan t = true → c.exitRan t = true →
    c.owed t = [] ∧
      (queryTracker hash pid calm c.tracker t = false ∨ ∃ u, u ≠ t ∧ c.owner (pid t) = some u)

def Settles (c : Config Task) (e : Event Task) : Prop :=
  GivesChild pid c e ∧ Cleared hash pid (next hash pid c e)

omit [DecidableEq Task] in
/-- A fork handler finds a task under the child's pid and, where the parent is tracked, runs before
the child's exit handler; no exit handler runs for a child whose node was not allocated. -/
def InTime (c : Config Task) : Event Task → Prop
  | .forkHandler child _ ctx => (getPidTask c (pid child)).isSome = true ∧
      ∀ parent, c.parent child = some parent →
        queryTracker hash pid ctx c.tracker parent = true → c.exitRan child = false
  | .exitEntryHandler task => c.lost task = false
  | _ => True

end Step

instance [DecidableEq Task] [Fintype Task] (pid : Task → Pid) (c : Config Task) :
    DecidablePred (Allows pid c) := fun e => by
  cases e <;> unfold Allows <;> infer_instance

instance [DecidableEq Task] [Fintype Task] (hash : Pid → Bucket) (pid : Task → Pid)
    (c : Config Task) : DecidablePred (InTime hash pid c) := fun e => by
  cases e <;> unfold InTime <;> infer_instance

/-- The probes are loaded over a running system, in which `roots` names the tasks. -/
def init [DecidableEq Task] (pid : Task → Pid) (s : Hash.State) (roots : Pid → Option Task) :
    Config Task where
  tracker := s
  owner := roots
  born t := roots (pid t) = some t
  parent _ := none
  forkRan _ := false
  exitRan _ := false
  owed _ := []
  lost _ := false

/-- Each pid names at most one task, which was registered at most once. -/
structure Boots (hash : Pid → Bucket) (pid : Task → Pid) (s : Hash.State)
    (roots : Pid → Option Task) : Prop where
  pids : ∀ id t, roots id = some t → pid t = id
  single : ∀ id, (dataOf hash s id).length ≤ 1
  unnamed : ∀ id, roots id = none → dataOf hash s id = []

/-- What a live child is owed is what the tracker holds for it, or the node for its one datum was
not allocated. -/
def Account (held owed : List Word) (lost : Bool) : Prop :=
  (owed = held ∧ lost = false) ∨ (held = [] ∧ ∃ d, owed = [d] ∧ (lost = true ↔ d ≠ NULL))

/-- The states of the runs whose handlers are in time. -/
structure Inv (hash : Pid → Bucket) (pid : Task → Pid) (c : Config Task) : Prop where
  pids : ∀ id t, c.owner id = some t → pid t = id
  unnamed : ∀ id, c.owner id = none → dataOf hash c.tracker id = []
  single : ∀ id, (dataOf hash c.tracker id).length ≤ 1
  unborn : ∀ t, c.born t = false →
    c.parent t = none ∧ c.forkRan t = false ∧ c.exitRan t = false
  alive : ∀ t, c.born t = true → c.exitRan t = false → c.owner (pid t) = some t
  exited : ∀ t, c.exitRan t = true →
    c.owed t = [] ∧ (c.owner (pid t) = some t → dataOf hash c.tracker (pid t) = [])
  waiting : ∀ t, c.forkRan t = false → c.owed t = [] ∧ c.lost t = false ∧
    ((c.parent t).isSome = true → c.exitRan t = false → dataOf hash c.tracker (pid t) = [])
  account : ∀ t, c.forkRan t = true → c.exitRan t = false →
    (c.parent t).isSome = true ∧ Account (dataOf hash c.tracker (pid t)) (c.owed t) (c.lost t)

section Lemmas
variable {hash : Pid → Bucket} {pid : Task → Pid}

lemma ne_of_true_false {f : Task → Bool} {t u : Task} (ht : f t = true) (hu : f u = false) :
    t ≠ u :=
  ne_of_apply_ne f (by simp [ht,hu])

lemma queryTracker_eq_false {s : Hash.State} {t : Task} (h : dataOf hash s (pid t) = []) :
    queryTracker hash pid calm s t = false := by
  rw [queryTracker_eq hash pid calm rfl,h]
  rfl

lemma Inv.born_of_parent {c : Config Task} (h : Inv hash pid c) {t : Task}
    (hp : (c.parent t).isSome = true) : c.born t = true := by
  by_contra hb
  have hnone := (h.unborn t (by simpa using hb)).1
  rw [hnone] at hp
  cases hp

lemma Inv.pid_ne {c : Config Task} (h : Inv hash pid c) {t u : Task} (ht : c.born t = true)
    (hte : c.exitRan t = false) (hu : c.owner (pid u) = some u) (hne : t ≠ u) :
    pid t ≠ pid u := by
  intro hp
  have hown := h.alive t ht hte
  rw [hp,hu] at hown
  exact hne (Option.some.inj hown).symm

theorem Inv.cleared {c : Config Task} (h : Inv hash pid c) : Cleared hash pid c := by
  intro t _ _ hexit
  obtain ⟨howed,hnone⟩ := h.exited t hexit
  refine ⟨howed,?_⟩
  cases ho : c.owner (pid t) with
  | none => exact .inl (queryTracker_eq_false (h.unnamed _ ho))
  | some u =>
    rcases eq_or_ne u t with rfl | hne
    · exact .inl (queryTracker_eq_false (hnone ho))
    · exact .inr ⟨u,hne,rfl⟩

/-- An exit takes the one entry of its pid. -/
lemma Inv.exit_data {c : Config Task} (h : Inv hash pid c) (task : Task) :
    dataOf hash (trackerDel hash pid c.tracker task).1 =
      Function.update (dataOf hash c.tracker) (pid task) [] := by
  have hlen := h.single (pid task)
  have hnil : (dataOf hash c.tracker (pid task)).tail = [] :=
    List.length_eq_zero_iff.mp (by rw [List.length_tail]; omega)
  rw [dataOf_trackerDel,hnil]

/-- It passes on what is owed, unless the node for it could not be allocated. -/
lemma Inv.exit_pays {c : Config Task} (h : Inv hash pid c) {task : Task}
    (hexit : c.exitRan task = false) (hlost : c.lost task = false) :
    (c.owed task).erase (trackerDel hash pid c.tracker task).2 = [] := by
  rw [trackerDel_data]
  cases hf : c.forkRan task with
  | false =>
    rw [(h.waiting task hf).1]
    rfl
  | true =>
    rcases (h.account task hf hexit).2 with ⟨howed,-⟩ | ⟨hheld,d,howed,hd⟩
    · rw [howed]
      have hlen := h.single (pid task)
      cases hs : dataOf hash c.tracker (pid task) with
      | nil => rfl
      | cons d rest =>
        rw [hs,List.length_cons] at hlen
        have hrest : rest = [] := List.length_eq_zero_iff.mp (by omega)
        simp [hrest]
    · have hd0 : d = NULL := by
        by_contra hne
        exact Bool.false_ne_true (hlost.symm.trans (hd.mpr hne))
      simp [howed,hheld,hd0]

variable [DecidableEq Task]

theorem Inv.init {s : Hash.State} {roots : Pid → Option Task} (h : Boots hash pid s roots) :
    Inv hash pid (init pid s roots) where
  pids := h.pids
  unnamed := h.unnamed
  single := h.single
  unborn _ _ := ⟨rfl,rfl,rfl⟩
  alive _ ht _ := of_decide_eq_true ht
  exited _ ht := by cases ht
  waiting _ _ := ⟨rfl,rfl,fun hp => by cases hp⟩
  account _ ht := by cases ht

section Handlers
variable {c : Config Task} {child ntask parent : Task} (data : Word) (ctx : Context)

lemma forkHandler_untracked (hn : getPidTask c (pid child) = some ntask)
    (hq : queryTracker hash pid ctx c.tracker parent = false) :
    forkHandler hash pid c parent child data ctx =
      { c with forkRan := Function.update c.forkRan child true } := by
  simp [forkHandler,hn,trackForkWrapper,Hash.tracker,hq]

lemma forkHandler_tracked (hn : getPidTask c (pid child) = some ntask)
    (hq : queryTracker hash pid ctx c.tracker parent = true) :
    forkHandler hash pid c parent child data ctx =
      { c with
        tracker := (trackerAdd hash pid ctx c.tracker ntask data).1
        forkRan := Function.update c.forkRan child true
        owed := Function.update c.owed child (data :: c.owed child)
        lost :=
          if !ctx.alloc && data != NULL then Function.update c.lost child true else c.lost } := by
  simp [forkHandler,hn,trackForkWrapper,Hash.tracker,hq]

end Handlers

lemma Inv.spawn {c : Config Task} (h : Inv hash pid c) {parent child : Task}
    (hb : c.born child = false) (ho : c.owner (pid child) = none) :
    Inv hash pid (next hash pid c (.spawn parent child)) := by
  obtain ⟨-,hfork,hexit⟩ := h.unborn child hb
  refine
    { pids := Update.all (P := fun id o => ∀ t, o = some t → pid t = id) (fun t ht => ?pids) h.pids
      unnamed := Update.all (P := fun id o => o = none → dataOf hash c.tracker id = [])
        (fun hnone => by cases hnone) h.unnamed
      single := h.single
      unborn := fun t ht => ?unborn
      alive := fun t ht hte => ?alive
      exited := fun t ht => ?exited
      waiting := fun t ht => ?waiting
      account := fun t ht hte => ?account }
  case pids => rw [Option.some.inj ht]
  case unborn =>
    rcases eq_or_ne t child with rfl | hne
    · simp [next] at ht
    · simp only [next,Function.update_of_ne hne] at ht ⊢
      exact h.unborn t ht
  case alive =>
    rcases eq_or_ne t child with rfl | hne
    · simp [next]
    · simp only [next,Function.update_of_ne hne] at ht ⊢
      have hown := h.alive t ht hte
      rwa [Function.update_of_ne fun hp => by simp [hp,ho] at hown]
  case exited =>
    obtain ⟨howed,hdata⟩ := h.exited t ht
    refine ⟨howed,fun hown => ?_⟩
    rcases eq_or_ne (pid t) (pid child) with hp | hp
    · rw [hp]
      exact h.unnamed _ ho
    · simp only [next,Function.update_of_ne hp] at hown
      exact hdata hown
  case waiting =>
    obtain ⟨howed,hlost,hdata⟩ := h.waiting t ht
    refine ⟨howed,hlost,fun hp hte => ?_⟩
    rcases eq_or_ne t child with rfl | hne
    · exact h.unnamed _ ho
    · simp only [next,Function.update_of_ne hne] at hp
      exact hdata hp hte
  case account =>
    have hne : t ≠ child := ne_of_true_false ht hfork
    simp only [next,Function.update_of_ne hne]
    exact h.account t ht hte

/-- The bookkeeping of a fork handler that is in time: the new child gets at most the entry of
its own datum. -/
lemma Inv.forkUpdate {c : Config Task} (h : Inv hash pid c) {child : Task}
    (hf : c.forkRan child = false) (hp : (c.parent child).isSome = true)
    (hexit : c.exitRan child = false) (s : Hash.State) (held owed : List Word) (lost : Bool)
    (hdata : dataOf hash s = Function.update (dataOf hash c.tracker) (pid child) held)
    (hheld : held.length ≤ 1) (hacc : Account held owed lost) :
    Inv hash pid { c with
      tracker := s
      forkRan := Function.update c.forkRan child true
      owed := Function.update c.owed child owed
      lost := Function.update c.lost child lost } := by
  have hborn := h.born_of_parent hp
  have hown := h.alive child hborn hexit
  have hother : ∀ t, t ≠ child → c.owner (pid t) = some t →
      dataOf hash s (pid t) = dataOf hash c.tracker (pid t) := by
    intro t hne ht
    rw [hdata,Function.update_of_ne fun hpid => hne ?_]
    rw [hpid,hown] at ht
    exact (Option.some.inj ht).symm
  refine
    { pids := h.pids
      unnamed := fun id hid => ?unnamed
      single := fun id => ?single
      unborn := fun t ht => ?unborn
      alive := h.alive
      exited := fun t ht => ?exited
      waiting := fun t ht => ?waiting
      account := fun t ht hte => ?account }
  case unnamed =>
    have hne : id ≠ pid child := fun hpid => by
      rw [hpid,hown] at hid
      cases hid
    change dataOf hash s id = []
    rw [hdata,Function.update_of_ne hne]
    exact h.unnamed id hid
  case single =>
    change (dataOf hash s id).length ≤ 1
    rw [hdata]
    exact Update.all (P := fun _ l => List.length l ≤ 1) hheld h.single id
  case unborn =>
    have hne : t ≠ child := (ne_of_true_false hborn ht).symm
    simp only [Function.update_of_ne hne]
    exact h.unborn t ht
  case exited =>
    have hne : t ≠ child := ne_of_true_false ht hexit
    simp only [Function.update_of_ne hne]
    obtain ⟨howed,hnone⟩ := h.exited t ht
    exact ⟨howed,fun ho => (hother t hne ho).trans (hnone ho)⟩
  case waiting =>
    rcases eq_or_ne t child with rfl | hne
    · simp at ht
    · simp only [Function.update_of_ne hne] at ht ⊢
      obtain ⟨howed,hlost,hnone⟩ := h.waiting t ht
      refine ⟨howed,hlost,fun hpt hte => ?_⟩
      rw [hother t hne (h.alive t (h.born_of_parent hpt) hte)]
      exact hnone hpt hte
  case account =>
    rcases eq_or_ne t child with rfl | hne
    · simp only [Function.update_self,hdata]
      exact ⟨hp,hacc⟩
    · simp only [Function.update_of_ne hne] at ht ⊢
      obtain ⟨hpt,hacct⟩ := h.account t ht hte
      rw [hother t hne (h.alive t (h.born_of_parent hpt) hte)]
      exact ⟨hpt,hacct⟩

/-- A fork handler that finds its child exited and its parent untracked leaves a mark only. -/
lemma Inv.forkMark {c : Config Task} (h : Inv hash pid c) {child : Task}
    (hp : (c.parent child).isSome = true) (hexit : c.exitRan child = true) :
    Inv hash pid { c with forkRan := Function.update c.forkRan child true } where
  pids := h.pids
  unnamed := h.unnamed
  single := h.single
  unborn t ht := by
    have hne : t ≠ child := (ne_of_true_false (h.born_of_parent hp) ht).symm
    simp only [Function.update_of_ne hne]
    exact h.unborn t ht
  alive := h.alive
  exited := h.exited
  waiting t ht := by
    rcases eq_or_ne t child with rfl | hne
    · simp at ht
    · simp only [Function.update_of_ne hne] at ht
      exact h.waiting t ht
  account t ht hte := by
    have hne : t ≠ child := (ne_of_true_false hexit hte).symm
    simp only [Function.update_of_ne hne] at ht
    exact h.account t ht hte

/-- A live child of a tracked parent is added, or owed a datum whose node was not allocated. -/
lemma Inv.forkAdd {c : Config Task} (h : Inv hash pid c) {child : Task} (data : Word)
    (ctx : Context) (hf : c.forkRan child = false) (hp : (c.parent child).isSome = true)
    (hexit : c.exitRan child = false) :
    Inv hash pid { c with
      tracker := (trackerAdd hash pid ctx c.tracker child data).1
      forkRan := Function.update c.forkRan child true
      owed := Function.update c.owed child [data]
      lost := if !ctx.alloc && data != NULL then Function.update c.lost child true else c.lost } := by
  obtain ⟨-,hlost,hnone⟩ := h.waiting child hf
  have hnil := hnone hp hexit
  cases halloc : ctx.alloc with
  | true =>
    have hu := h.forkUpdate hf hp hexit _ _ _ false
      (dataOf_trackerAdd hash pid ctx halloc c.tracker child data)
      (by rw [hnil]; rfl) (.inl ⟨by rw [hnil],rfl⟩)
    rw [← hlost,Function.update_eq_self] at hu
    exact hu
  | false =>
    rw [trackerAdd_of_not_alloc hash pid ctx halloc]
    have hu := fun lost (hacc : Account [] [data] lost) =>
      h.forkUpdate hf hp hexit c.tracker [] [data] lost
        (by rw [← hnil,Function.update_eq_self]) (by simp) hacc
    by_cases hdata : data = NULL
    · have hu' := hu false (.inr ⟨rfl,data,rfl,by simp [hdata]⟩)
      rw [← hlost,Function.update_eq_self] at hu'
      simpa [hdata] using hu'
    · simpa [hdata] using hu true (.inr ⟨rfl,data,rfl,by simp [hdata]⟩)

lemma Inv.fork {c : Config Task} (h : Inv hash pid c) {child : Task} {data : Word}
    {ctx : Context} (he : Allows pid c (.forkHandler child data ctx))
    (ht : InTime hash pid c (.forkHandler child data ctx)) :
    Inv hash pid (next hash pid c (.forkHandler child data ctx)) := by
  obtain ⟨hf,parent,hparent,-⟩ := he
  obtain ⟨hsome,hlate⟩ := ht
  obtain ⟨ntask,hn⟩ := Option.isSome_iff_exists.mp hsome
  have hp : (c.parent child).isSome = true := by rw [hparent]; rfl
  obtain ⟨howed,hlost,hnone⟩ := h.waiting child hf
  simp only [next,hparent]
  cases hq : queryTracker hash pid ctx c.tracker parent with
  | false =>
    rw [forkHandler_untracked data ctx hn hq]
    cases hexit : c.exitRan child with
    | true => exact h.forkMark hp hexit
    | false =>
      have hu := h.forkUpdate hf hp hexit c.tracker [] [] false
        (by rw [← hnone hp hexit,Function.update_eq_self]) (by simp) (.inl ⟨rfl,rfl⟩)
      rwa [← howed,← hlost,Function.update_eq_self,Function.update_eq_self] at hu
  | true =>
    have hexit := hlate parent hparent hq
    have hchild : ntask = child := by
      have hown := h.alive child (h.born_of_parent hp) hexit
      exact Option.some.inj (hn.symm.trans hown)
    rw [forkHandler_tracked data ctx hn hq,howed,hchild]
    exact h.forkAdd data ctx hf hp hexit

lemma Inv.exitEntry {c : Config Task} (h : Inv hash pid c) {task : Task}
    (hb : c.born task = true) (hexit : c.exitRan task = false) (hlost : c.lost task = false) :
    Inv hash pid (exitEntryHandler hash pid c task) := by
  have hown := h.alive task hb hexit
  have hdata := h.exit_data task
  have hpaid := h.exit_pays hexit hlost
  have hsub : ∀ id, dataOf hash c.tracker id = [] →
      dataOf hash (trackerDel hash pid c.tracker task).1 id = [] := by
    intro id hid
    rw [hdata]
    rcases eq_or_ne id (pid task) with rfl | hne
    · rw [Function.update_self]
    · rwa [Function.update_of_ne hne]
  refine
    { pids := h.pids
      unnamed := fun id hid => hsub id (h.unnamed id hid)
      single := fun id => ?single
      unborn := fun t ht => ?unborn
      alive := fun t ht hte => ?alive
      exited := fun t ht => ?exited
      waiting := fun t ht => ?waiting
      account := fun t ht hte => ?account }
  case single =>
    change (dataOf hash (trackerDel hash pid c.tracker task).1 id).length ≤ 1
    rw [hdata]
    exact Update.all (P := fun _ l => List.length l ≤ 1) (by simp) h.single id
  case unborn =>
    have hne : t ≠ task := (ne_of_true_false hb ht).symm
    simp only [exitEntryHandler,Function.update_of_ne hne]
    exact h.unborn t ht
  case alive =>
    rcases eq_or_ne t task with rfl | hne
    · exact hown
    · simp only [exitEntryHandler,Function.update_of_ne hne] at hte
      exact h.alive t ht hte
  case exited =>
    rcases eq_or_ne t task with rfl | hne
    · refine ⟨?_,fun _ => ?_⟩
      · simpa [exitEntryHandler,trackExitWrapper,Hash.tracker] using hpaid
      · change dataOf hash (trackerDel hash pid c.tracker t).1 (pid t) = []
        rw [hdata,Function.update_self]
    · simp only [exitEntryHandler,Function.update_of_ne hne] at ht
      obtain ⟨howed,hnone⟩ := h.exited t ht
      refine ⟨?_,fun ho => hsub _ (hnone ho)⟩
      simpa [exitEntryHandler,trackExitWrapper,Function.update_of_ne hne] using howed
  case waiting =>
    obtain ⟨howed,hl,hnone⟩ := h.waiting t ht
    rcases eq_or_ne t task with rfl | hne
    · refine ⟨?_,hl,fun _ hte => ?_⟩
      · simpa [exitEntryHandler,trackExitWrapper,Hash.tracker] using hpaid
      · simp [exitEntryHandler] at hte
    · refine ⟨?_,hl,fun hp hte => ?_⟩
      · simpa [exitEntryHandler,trackExitWrapper,Function.update_of_ne hne] using howed
      · simp only [exitEntryHandler,Function.update_of_ne hne] at hte
        exact hsub _ (hnone hp hte)
  case account =>
    rcases eq_or_ne t task with rfl | hne
    · simp [exitEntryHandler] at hte
    · simp only [exitEntryHandler,Function.update_of_ne hne] at hte
      obtain ⟨hp,hacc⟩ := h.account t ht hte
      have hpid := h.pid_ne (h.born_of_parent hp) hte hown hne
      refine ⟨hp,?_⟩
      simpa [exitEntryHandler,trackExitWrapper,Hash.tracker,hdata,Function.update_of_ne hne,
        Function.update_of_ne hpid] using hacc

lemma Inv.reap {c : Config Task} (h : Inv hash pid c) {task : Task}
    (hexit : c.exitRan task = true) (hown : c.owner (pid task) = some task) :
    Inv hash pid (next hash pid c (.reap task)) where
  pids := Update.all (P := fun id o => ∀ t, o = some t → pid t = id) (by simp) h.pids
  unnamed :=
    Update.all (P := fun id o => o = none → dataOf hash c.tracker id = [])
      (fun _ => (h.exited task hexit).2 hown) h.unnamed
  single := h.single
  unborn := h.unborn
  alive t ht hte := by
    have hne : t ≠ task := (ne_of_true_false hexit hte).symm
    have hpid := h.pid_ne ht hte hown hne
    simp only [next,Function.update_of_ne hpid]
    exact h.alive t ht hte
  exited t ht := by
    obtain ⟨howed,hnone⟩ := h.exited t ht
    refine ⟨howed,fun ho => ?_⟩
    rcases eq_or_ne (pid t) (pid task) with hp | hp
    · simp [next,hp] at ho
    · simp only [next,Function.update_of_ne hp] at ho
      exact hnone ho
  waiting := h.waiting
  account := h.account

/-- A step that is in time keeps the invariant. -/
theorem Inv.next {c : Config Task} (h : Inv hash pid c) {e : Event Task} (he : Allows pid c e)
    (ht : InTime hash pid c e) : Inv hash pid (Kprobe.next hash pid c e) := by
  cases e with
  | spawn parent child => exact h.spawn he.2.1 he.2.2
  | forkHandler child data ctx => exact h.fork he ht
  | exitEntryHandler task => exact h.exitEntry he.1 he.2 ht
  | reap task => exact h.reap he.1 he.2

/-- A late handler leaves a datum behind at once, an exit without its node likewise. -/
theorem Inv.settles_iff {c : Config Task} (h : Inv hash pid c) {e : Event Task}
    (he : Allows pid c e) : Settles hash pid c e ↔ InTime hash pid c e := by
  constructor
  · rintro ⟨hgives,hcleared⟩
    cases e with
    | spawn parent child => trivial
    | reap task => trivial
    | forkHandler child data ctx =>
      refine ⟨hgives,fun parent hparent hq => ?_⟩
      obtain ⟨ntask,hn⟩ := Option.isSome_iff_exists.mp hgives
      by_contra hexit
      simp only [Kprobe.next,hparent,forkHandler_tracked data ctx hn hq] at hcleared
      have hpaid := (hcleared child (by rw [hparent]; rfl) (Function.update_self ..)
        (by simpa using hexit)).1
      simp at hpaid
    | exitEntryHandler task =>
      by_contra hlost
      have hf : c.forkRan task = true := by
        by_contra hf
        exact hlost (h.waiting task (by simpa using hf)).2.1
      obtain ⟨hp,hacc⟩ := h.account task hf he.2
      rcases hacc with ⟨-,hfalse⟩ | ⟨hheld,d,howed,hd⟩
      · exact hlost hfalse
      · have hpaid := (hcleared task hp hf (Function.update_self ..)).1
        have hne : d ≠ NULL := hd.mp (Bool.not_eq_false _ ▸ hlost)
        simp [Kprobe.next,exitEntryHandler,trackExitWrapper,Hash.tracker,trackerDel_data,hheld,
          howed,hne] at hpaid
  · intro ht
    refine ⟨?_,(h.next he ht).cleared⟩
    cases e with
    | forkHandler child data ctx => exact ht.1
    | spawn | exitEntryHandler | reap => trivial

/-- A child exits before the fork handler of its tracked parent, which then tracks it for good;
and a child of an untracked parent is reaped before the handler, which passes NULL on. -/
theorem late_fork_unsettled :
    let hash : Pid → Bucket := fun _ => 0
    let pid : Fin 2 → Pid := fun t => t.val
    let roots : Pid → Option (Fin 2) := fun id => if id = 0 then some 0 else none
    let tracked := init pid (trackerAdd hash pid calm trackerInit 0 16).1 roots
    let late : List (Event (Fin 2)) := [.spawn 0 1,.exitEntryHandler 1,.forkHandler 1 32 calm]
    let untracked := init pid trackerInit roots
    let gone : List (Event (Fin 2)) :=
      [.spawn 0 1,.exitEntryHandler 1,.reap 1,.forkHandler 1 32 calm]
    (Admits (Kprobe.next hash pid) (Allows pid) tracked late ∧
        queryTracker hash pid calm (late.foldl (Kprobe.next hash pid) tracked).tracker 1 = true ∧
        ¬ Admits (Kprobe.next hash pid) (Settles hash pid) tracked late) ∧
      Admits (Kprobe.next hash pid) (Allows pid) untracked gone ∧
        ¬ Admits (Kprobe.next hash pid) (Settles hash pid) untracked gone := by
  intro hash pid roots tracked late untracked gone
  refine ⟨⟨by decide,by decide,fun h => ?_⟩,by decide,fun h => ?_⟩
  · have hcleared : Cleared hash pid (late.foldl (Kprobe.next hash pid) tracked) := h.2.2.1.2
    exact absurd (hcleared 1 rfl rfl rfl).1 (by decide)
  · have hgives : GivesChild pid _ (.forkHandler 1 32 calm) := h.2.2.2.1.1
    exact absurd hgives Bool.false_ne_true

/-- Exactly which interleavings of fork and exit handlers never hand a NULL child on and leave
nothing of a finished child behind: those in which every fork handler still finds a task under
its child's pid and, where the parent is tracked, runs before the exit handler of the child, and
in which no child exits whose node could not be allocated. -/
theorem forks_settle_iff {s : Hash.State} {roots : Pid → Option Task}
    (hboots : Boots hash pid s roots) {events : List (Event Task)}
    (hrun : Admits (Kprobe.next hash pid) (Allows pid) (init pid s roots) events) :
    Admits (Kprobe.next hash pid) (Settles hash pid) (init pid s roots) events ↔
      Admits (Kprobe.next hash pid) (InTime hash pid) (init pid s roots) events :=
  admits_iff_admits (fun _ _ h he => h.settles_iff he) (fun _ _ h he ht => h.next he ht)
    (Inv.init hboots) hrun

/-- A tracked task forks; its child runs after the handler, exits and is reaped, and the pid is
used again. -/
theorem forks_settle_timely :
    let hash : Pid → Bucket := fun _ => 0
    let pid : Fin 3 → Pid := fun t => if t = 0 then 1 else 2
    let s := (trackerAdd hash pid calm trackerInit 0 16).1
    Admits (Kprobe.next hash pid) (Settles hash pid)
      (init pid s fun id => if id = 1 then some 0 else none)
      [.spawn 0 1,.forkHandler 1 32 calm,.exitEntryHandler 1,.reap 1,.spawn 0 2,
        .forkHandler 2 48 calm] := by
  intro hash pid s
  have hdata : dataOf hash s = Function.update (fun _ => []) 1 [16] :=
    dataOf_trackerAdd hash pid calm rfl trackerInit 0 16
  refine (forks_settle_iff ⟨fun id t ht => ?_,fun id => ?_,fun id hid => ?_⟩ (by decide)).mpr
    (by decide)
  · split at ht
    · rename_i hid
      rw [← Option.some.inj ht,hid]
      rfl
    · cases ht
  · rw [hdata]
    exact Update.all (P := fun _ l => List.length l ≤ 1) (by simp) (by simp) id
  · have hne : id ≠ 1 := fun h => by simp [h] at hid
    rw [hdata,Function.update_of_ne hne]

end Lemmas
end PmuMin.Kprobe
