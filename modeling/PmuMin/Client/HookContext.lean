import PmuMin.Client.Load
import PmuMin.Tracker.Hash
import PmuMin.Tracker.Stack
import PmuMin.Tracker.Perf
import PmuMin.Library.ExecContext
import PmuMin.Library.Refcount

/-! The execution context around the hook handlers of `system_hook_tracep.c`: interrupts,
preemption and `usage`, through `start_handler`, the installed callback and `stop_handler`. -/
namespace PmuMin

open ExecContext in
/-- A tracker with what each operation does to the execution context of its caller, which it gives
back as it found it. -/
structure ExecTracker (Task σ : Type) extends Tracker Task σ where
  addExec : Context → σ → Task → Exec → Exec
  delExec : Context → σ → Task → Exec → Exec
  queryExec : Context → σ → Task → Exec → Exec
  addExec_eq : ∀ ctx s task e, addExec ctx s task e = e
  delExec_eq : ∀ ctx s task e, delExec ctx s task e = e
  queryExec_eq : ∀ ctx s task e, queryExec ctx s task e = e

section Builds
variable {Task : Type}

/-- The list lock is taken with interrupts off; the queries only try. -/
def Hash.execTracker (hash : Hash.Pid → Hash.Bucket) (pid : Task → Hash.Pid) :
    ExecTracker Task Hash.State where
  toTracker := Hash.tracker hash pid
  addExec ctx _ _ e :=
    if ctx.alloc then
      let r := e.spinLockIrqsave
      r.2.spinUnlockIrqrestore r.1
    else e
  delExec _ _ _ e :=
    let r := e.spinLockIrqsave
    r.2.spinUnlockIrqrestore r.1
  queryExec ctx _ _ e :=
    match e.spinTrylockIrqsave ctx.trylock with
    | (some flags,e) => e.spinUnlockIrqrestore flags
    | (none,e) => e
  addExec_eq ctx _ _ e := by
    dsimp only
    split
    · exact e.spinUnlockIrqrestore_spinLockIrqsave
    · rfl
  delExec_eq _ _ _ e := e.spinUnlockIrqrestore_spinLockIrqsave
  queryExec_eq ctx _ _ e := by
    cases ctx.trylock with
    | true => exact e.spinUnlockIrqrestore_spinLockIrqsave
    | false => exact e.localIrqRestore_localIrqSave

/-- Interrupts are off while the stack is patched or restored. -/
def Stack.execTracker [DecidableEq Task] : ExecTracker Task (Stack.State Task) where
  toTracker := Stack.tracker
  addExec _ _ _ e :=
    let r := e.localIrqSave
    r.2.localIrqRestore r.1
  delExec _ s task e :=
    match Stack.getMagicEntry s task with
    | none => e
    | some _ =>
      let r := e.localIrqSave
      r.2.localIrqRestore r.1
  queryExec _ _ _ e := e
  addExec_eq _ _ _ e := e.localIrqRestore_localIrqSave
  delExec_eq _ s task e := by
    dsimp only
    split
    · rfl
    · exact e.localIrqRestore_localIrqSave
  queryExec_eq _ _ _ _ := rfl

/-- Preemption is off in `destroy_task_data`. -/
def Perf.execTracker [DecidableEq Task] : ExecTracker Task (Perf.State Task) where
  toTracker := Perf.tracker
  addExec _ _ _ e := e
  delExec ctx s task e :=
    match Perf.getTaskEvent ctx.cpu s task with
    | none => e
    | some _ => e.preemptDisable.preemptEnable
  queryExec _ _ _ e := e
  addExec_eq _ _ _ _ := rfl
  delExec_eq ctx s task e := by
    split
    · rfl
    · exact e.preemptEnable_preemptDisable
  queryExec_eq _ _ _ _ := rfl

end Builds

namespace HookContext
open Client ExecContext

/-- The functions that are installed as callbacks. -/
inductive HookFunc
  | trackCtxsWrapper
  | trackForkWrapper
  | trackExitWrapper
  | client (hook : ClientHook)
  deriving DecidableEq, Repr

def registerHooks (s : Shook HookFunc) : Shook HookFunc :=
  let s := s.setShookCallback (some .trackCtxsWrapper) .schedIn
  let s := s.setShookCallback (some .trackForkWrapper) .procFork
  s.setShookCallback (some .trackExitWrapper) .procExit

def unregisterHooks (s : Shook HookFunc) : Shook HookFunc :=
  let s := s.setShookCallback none .schedIn
  let s := s.setShookCallback none .procFork
  s.setShookCallback none .procExit

/-- The callbacks that `init_shook` of the client sets, besides the two switches. -/
def clientHooks (s : Shook HookFunc) : Shook HookFunc :=
  let s := s.setShookCallback (some (.client .onAttach)) .onAttach
  let s := s.setShookCallback (some (.client .onDetach)) .onDetach
  s.setShookCallback (some (.client .schedIn)) .schedIn

/-- The callbacks that `fini_shook` takes back. -/
def noClientHooks (s : Shook HookFunc) : Shook HookFunc :=
  let s := s.setShookCallback none .schedIn
  let s := s.setShookCallback none .onAttach
  s.setShookCallback none .onDetach

inductive ConfigCall
  | registerHooks
  | unregisterHooks
  | initShook
  | finiShook
  deriving DecidableEq, Repr

def configure (s : Shook HookFunc) : ConfigCall → Shook HookFunc
  | .registerHooks => HookContext.registerHooks s
  | .unregisterHooks => HookContext.unregisterHooks s
  | .initShook => clientHooks s
  | .finiShook => noClientHooks s

/-- The callbacks before anything is set. -/
def dummies : Shook HookFunc := ⟨.dummy,.dummy,.dummy,.dummy,.dummy,false,false⟩

/-- Each callback is a dummy or a function of its own kind. -/
structure Configured (s : Shook HookFunc) : Prop where
  schedIn : s.hookSchedIn = .dummy ∨ s.hookSchedIn = .installed .trackCtxsWrapper ∨
    s.hookSchedIn = .installed (.client .schedIn)
  procFork : s.hookProcFork = .dummy ∨ s.hookProcFork = .installed .trackForkWrapper
  procExit : s.hookProcExit = .dummy ∨ s.hookProcExit = .installed .trackExitWrapper
  onAttach : s.hookOnAttach = .dummy ∨ s.hookOnAttach = .installed (.client .onAttach)
  onDetach : s.hookOnDetach = .dummy ∨ s.hookOnDetach = .installed (.client .onDetach)

lemma Configured.configure {s : Shook HookFunc} (h : Configured s) (c : ConfigCall) :
    Configured (configure s c) := by
  cases c with
  | registerHooks => exact ⟨.inr (.inl rfl),.inr rfl,.inr rfl,h.onAttach,h.onDetach⟩
  | unregisterHooks => exact ⟨.inl rfl,.inl rfl,.inl rfl,h.onAttach,h.onDetach⟩
  | initShook => exact ⟨.inr (.inr rfl),h.procFork,h.procExit,.inr rfl,.inr rfl⟩
  | finiShook => exact ⟨.inl rfl,h.procFork,h.procExit,.inl rfl,.inl rfl⟩

theorem configured_foldl (calls : List ConfigCall) : Configured (calls.foldl configure dummies) :=
  List.foldlRecOn calls configure
    (⟨.inl rfl,.inl rfl,.inl rfl,.inl rfl,.inl rfl⟩ : Configured dummies)
    fun _ h c _ => h.configure c

/-- What a handler acts on: the context of its CPU, `usage`, the heap, the tracker and the enable
register of the counters. -/
structure World (σ : Type) where
  exec : Exec
  usage : ℕ
  heap : Heap
  tracker : σ
  globalCtrl : Word

/-- The globals that the handlers only read, with the build of the client. -/
structure Globals where
  shook : Shook HookFunc
  unmounting : ℕ
  threadFilter : Bool
  gblNrPmcFixed : BitVec 5
  build : Build

/-- A tracepoint that is hit; the contexts are those of the calls of the tracker, the allocations
those of `client_hook_on_attach`. -/
inductive HookEvent (Task : Type)
  | schedIn (prev next : Task) (ctx ctx' : Context)
  | procFork (parent child : Task) (ctx : Context) (kmalloc : Option Block)
    (kvmalloc : Option Word)
  | procExit (p : Task) (ctx : Context)

section Handlers
variable {Task σ : Type} (T : ExecTracker Task σ) (g : Globals)

def startHandler (w : World σ) : Bool × World σ :=
  if !g.shook.shookEnabled then (false,w)
  else if g.unmounting > 1 then (false,w)
  else
    let w := { w with exec := w.exec.preemptDisable }
    (true,{ w with usage := Refcount.inc w.usage })

def stopHandler (w : World σ) : World σ :=
  let w := { w with usage := Refcount.dec w.usage }
  { w with exec := w.exec.preemptEnable }

def queryTracker (ctx : Context) (task : Task) (w : World σ) : Bool × World σ :=
  (T.queryTracker ctx w.tracker task,
    { w with exec := T.queryExec ctx w.tracker task w.exec })

def trackerAdd (ctx : Context) (task : Task) (data : Word) (w : World σ) : World σ :=
  { w with
    exec := T.addExec ctx w.tracker task w.exec
    tracker := (T.trackerAdd ctx w.tracker task data).1 }

def trackerDel (ctx : Context) (task : Task) (w : World σ) : World σ × Word :=
  let r := T.trackerDel ctx w.tracker task
  ({ w with exec := T.delExec ctx w.tracker task w.exec, tracker := r.1 },r.2)

/-- A call through `hook_on_attach`. -/
def hookOnAttach (kmalloc : Option Block) (kvmalloc : Option Word) (h : Heap) : Heap × Word :=
  match g.shook.hookOnAttach with
  | .installed (.client .onAttach) => clientHookOnAttach g.build kmalloc kvmalloc h
  | _ => (h,NULL)

/-- A call through `hook_on_detach`. -/
def hookOnDetach (h : Heap) (data : Word) : Heap :=
  match g.shook.hookOnDetach with
  | .installed (.client .onDetach) => clientHookOnDetach g.build h data
  | _ => h

def trackCtxsWrapper (prev next : Task) (ctx ctx' : Context) (w : World σ) : World σ :=
  (queryTracker T ctx' next (queryTracker T ctx prev w).2).2

def clientHookSchedIn (prev next : Task) (ctx ctx' : Context) (w : World σ) : World σ :=
  if !g.threadFilter then w
  else
    let p := queryTracker T ctx prev w
    let n := queryTracker T ctx' next p.2
    if p.1 then if !n.1 then { n.2 with globalCtrl := 0 } else n.2
    else if n.1 then { n.2 with globalCtrl := Gating.fixedPmcsToBitsMask g.gblNrPmcFixed }
    else n.2

/-- Interrupts are enabled for the allocations in between and disabled after them, whatever they
were before. -/
def trackForkWrapper (parent child : Task) (ctx : Context) (kmalloc : Option Block)
    (kvmalloc : Option Word) (w : World σ) : World σ :=
  let r := queryTracker T ctx parent w
  let w := r.2
  if r.1 then
    let w := { w with exec := w.exec.preemptEnable }
    let w := { w with exec := w.exec.localIrqEnable }
    let r := hookOnAttach g kmalloc kvmalloc w.heap
    let w := trackerAdd T ctx child r.2 { w with heap := r.1 }
    let w := { w with exec := w.exec.localIrqDisable }
    { w with exec := w.exec.preemptDisable }
  else w

def trackExitWrapper (p : Task) (ctx : Context) (w : World σ) : World σ :=
  let r := trackerDel T ctx p w
  { r.1 with heap := hookOnDetach g r.1.heap r.2 }

/-- A call through `hook_sched_in`. -/
def hookSchedIn (prev next : Task) (ctx ctx' : Context) (w : World σ) : World σ :=
  match g.shook.hookSchedIn with
  | .installed .trackCtxsWrapper => trackCtxsWrapper T prev next ctx ctx' w
  | .installed (.client .schedIn) => clientHookSchedIn T g prev next ctx ctx' w
  | _ => w

/-- A call through `hook_proc_fork`. -/
def hookProcFork (parent child : Task) (ctx : Context) (kmalloc : Option Block)
    (kvmalloc : Option Word) (w : World σ) : World σ :=
  match g.shook.hookProcFork with
  | .installed .trackForkWrapper => trackForkWrapper T g parent child ctx kmalloc kvmalloc w
  | _ => w

/-- A call through `hook_proc_exit`. -/
def hookProcExit (p : Task) (ctx : Context) (w : World σ) : World σ :=
  match g.shook.hookProcExit with
  | .installed .trackExitWrapper => trackExitWrapper T g p ctx w
  | _ => w

/-- The body that the three handlers share. -/
def handle (callback : World σ → World σ) (w : World σ) : World σ :=
  let r := startHandler g w
  if r.1 then stopHandler (callback r.2) else r.2

def whookSchedIn (prev next : Task) (ctx ctx' : Context) : World σ → World σ :=
  handle g (hookSchedIn T g prev next ctx ctx')

def whookProcFork (parent child : Task) (ctx : Context) (kmalloc : Option Block)
    (kvmalloc : Option Word) : World σ → World σ :=
  handle g (hookProcFork T g parent child ctx kmalloc kvmalloc)

def whookProcExit (p : Task) (ctx : Context) : World σ → World σ :=
  handle g (hookProcExit T g p ctx)

def whook : HookEvent Task → World σ → World σ
  | .schedIn prev next ctx ctx' => whookSchedIn T g prev next ctx ctx'
  | .procFork parent child ctx kmalloc kvmalloc =>
    whookProcFork T g parent child ctx kmalloc kvmalloc
  | .procExit p ctx => whookProcExit T g p ctx

/-- The callback that the handler of a tracepoint calls. -/
def callback : HookEvent Task → World σ → World σ
  | .schedIn prev next ctx ctx' => hookSchedIn T g prev next ctx ctx'
  | .procFork parent child ctx kmalloc kvmalloc =>
    hookProcFork T g parent child ctx kmalloc kvmalloc
  | .procExit p ctx => hookProcExit T g p ctx

/-- The context and the counter are what they were. -/
def Restored (w w' : World σ) : Prop := w'.exec = w.exec ∧ w'.usage = w.usage

instance (w w' : World σ) : Decidable (Restored w w') := inferInstanceAs (Decidable (_ ∧ _))

/-- The handler does its work. -/
def Runs : Prop := g.shook.shookEnabled = true ∧ g.unmounting ≤ 1

/-- An increment of `usage` that can be taken back. -/
def Countable (usage : ℕ) : Prop := 0 < usage ∧ usage < 2^31 - 1 ∨ usage = Refcount.saturated

/-- The fork of a tracked parent, with the hook set. -/
def Follows (w : World σ) : HookEvent Task → Prop
  | .procFork parent _ ctx _ _ =>
    g.shook.hookProcFork ≠ .dummy ∧ T.queryTracker ctx w.tracker parent = true
  | _ => False

end Handlers

section Effects
variable {Task σ : Type} {T : ExecTracker Task σ} {g : Globals}

lemma queryTracker_restored (ctx : Context) (task : Task) (w : World σ) :
    Restored w (queryTracker T ctx task w).2 := ⟨T.queryExec_eq ..,rfl⟩

lemma Restored.trans {w w' w'' : World σ} (h : Restored w w') (h' : Restored w' w'') :
    Restored w w'' := ⟨h'.1.trans h.1,h'.2.trans h.2⟩

lemma trackCtxsWrapper_restored (prev next : Task) (ctx ctx' : Context) (w : World σ) :
    Restored w (trackCtxsWrapper T prev next ctx ctx' w) :=
  (queryTracker_restored ctx prev w).trans (queryTracker_restored ctx' next _)

lemma clientHookSchedIn_restored (prev next : Task) (ctx ctx' : Context) (w : World σ) :
    Restored w (clientHookSchedIn T g prev next ctx ctx' w) := by
  have hqueries := (queryTracker_restored (T := T) ctx prev w).trans
    (queryTracker_restored (T := T) ctx' next _)
  unfold clientHookSchedIn
  dsimp only
  split_ifs
  · exact ⟨rfl,rfl⟩
  all_goals exact ⟨hqueries.1,hqueries.2⟩

lemma trackExitWrapper_restored (p : Task) (ctx : Context) (w : World σ) :
    Restored w (trackExitWrapper T g p ctx w) := ⟨T.delExec_eq ..,rfl⟩

/-- Preemption is balanced in the fork hook, interrupts are not. -/
lemma trackForkWrapper_context (parent child : Task) (ctx : Context) (kmalloc : Option Block)
    (kvmalloc : Option Word) (w : World σ) :
    let w' := trackForkWrapper T g parent child ctx kmalloc kvmalloc w
    w'.usage = w.usage ∧ w'.exec =
      if T.queryTracker ctx w.tracker parent = true then w.exec.localIrqDisable else w.exec := by
  unfold trackForkWrapper
  dsimp only
  by_cases hparent : (queryTracker T ctx parent w).1 = true
  · have htracked : T.queryTracker ctx w.tracker parent = true := hparent
    rw [if_pos hparent,if_pos htracked]
    refine ⟨rfl,?_⟩
    have hexec : ∀ e : Exec, e.preemptEnable.localIrqEnable.localIrqDisable.preemptDisable =
        e.localIrqDisable := fun e => e.localIrqDisable.preemptDisable_preemptEnable
    simp only [trackerAdd,T.addExec_eq,queryTracker,T.queryExec_eq,hexec]
  · have htracked : ¬ T.queryTracker ctx w.tracker parent = true := hparent
    rw [if_neg hparent,if_neg htracked]
    exact ⟨rfl,T.queryExec_eq ..⟩

/-- Only the fork of a tracked parent changes anything: interrupts are off after it. -/
lemma callback_context (hg : Configured g.shook) (e : HookEvent Task) (w : World σ) :
    (callback T g e w).usage = w.usage ∧
      (Follows T g w e → (callback T g e w).exec = w.exec.localIrqDisable) ∧
      (¬ Follows T g w e → (callback T g e w).exec = w.exec) := by
  cases e with
  | schedIn prev next ctx ctx' =>
    have hrestored : Restored w (hookSchedIn T g prev next ctx ctx' w) := by
      unfold hookSchedIn
      split
      · exact trackCtxsWrapper_restored prev next ctx ctx' w
      · exact clientHookSchedIn_restored prev next ctx ctx' w
      · exact ⟨rfl,rfl⟩
    exact ⟨hrestored.2,False.elim,fun _ => hrestored.1⟩
  | procFork parent child ctx kmalloc kvmalloc =>
    rw [callback,hookProcFork]
    rcases hg.procFork with hdummy | hfork
    · rw [hdummy]
      exact ⟨rfl,fun h => absurd hdummy h.1,fun _ => rfl⟩
    · rw [hfork]
      obtain ⟨husage,hexec⟩ := trackForkWrapper_context (T := T) (g := g) parent child ctx kmalloc
        kvmalloc w
      have hset : g.shook.hookProcFork ≠ .dummy := by
        rw [hfork]
        exact nofun
      refine ⟨husage,fun h => hexec.trans (if_pos h.2),fun h => hexec.trans (if_neg fun hq => ?_)⟩
      exact h ⟨hset,hq⟩
  | procExit p ctx =>
    have hrestored : Restored w (hookProcExit T g p ctx w) := by
      unfold hookProcExit
      split
      · exact trackExitWrapper_restored p ctx w
      · exact ⟨rfl,rfl⟩
    exact ⟨hrestored.2,False.elim,fun _ => hrestored.1⟩

lemma whook_eq_handle (e : HookEvent Task) : whook T g e = handle g (callback T g e) := by
  cases e <;> rfl

/-- `start_handler` and `stop_handler` around a callback. -/
lemma handle_of_runs (hruns : Runs g) (f : World σ → World σ) (w : World σ) :
    handle g f w = stopHandler
      (f { w with exec := w.exec.preemptDisable, usage := Refcount.inc w.usage }) := by
  obtain ⟨henabled,hmounted⟩ := hruns
  simp [handle,startHandler,henabled,Nat.not_lt.mpr hmounted]

lemma handle_of_not_runs (hruns : ¬ Runs g) (f : World σ → World σ) (w : World σ) :
    handle g f w = w := by
  unfold handle startHandler
  by_cases henabled : g.shook.shookEnabled = true
  · have hunmounting : g.unmounting > 1 := Nat.lt_of_not_le fun h => hruns ⟨henabled,h⟩
    simp [henabled,hunmounting]
  · simp [henabled]

/-- A handler that runs gives back the context, if interrupts survive its callback and `usage` can
be counted. -/
theorem whook_restored_iff (hg : Configured g.shook) (hruns : Runs g) (e : HookEvent Task)
    (w : World σ) : Restored w (whook T g e w) ↔
      Countable w.usage ∧ (Follows T g w e → w.exec.irqs = false) := by
  let w' : World σ := { w with exec := w.exec.preemptDisable, usage := Refcount.inc w.usage }
  obtain ⟨husage,hfollows,hother⟩ := callback_context (T := T) hg e w'
  have hsame : Follows T g w' e ↔ Follows T g w e := by cases e <;> rfl
  have husage' : (whook T g e w).usage = Refcount.dec (Refcount.inc w.usage) := by
    rw [whook_eq_handle,handle_of_runs hruns,stopHandler]
    exact congrArg Refcount.dec husage
  have hexec' : (whook T g e w).exec = (callback T g e w').exec.preemptEnable := by
    rw [whook_eq_handle,handle_of_runs hruns,stopHandler]
  rw [Restored,husage',Refcount.dec_inc_eq_self_iff,hexec',and_comm]
  apply and_congr_right
  intro _
  by_cases hfork : Follows T g w e
  · rw [hfollows (hsame.mpr hfork)]
    have hlost : w.exec.preemptDisable.localIrqDisable.preemptEnable = w.exec.localIrqDisable :=
      w.exec.localIrqDisable.preemptEnable_preemptDisable
    rw [hlost,Exec.localIrqDisable_eq_self_iff]
    exact (imp_iff_right hfork).symm
  · rw [hother (mt hsame.mp hfork),Exec.preemptEnable_preemptDisable]
    exact iff_of_true rfl fun h => absurd h hfork

end Effects

/-- A tracked parent forks with interrupts enabled, which no longer are when the handler returns. -/
theorem fork_disables_interrupts :
    let T := Hash.execTracker (fun _ => 0) fun t : Fin 2 => t.val
    let g : Globals :=
      ⟨{ [ConfigCall.registerHooks].foldl configure dummies with shookEnabled := true },1,false,3,
        ⟨.none,.none,8⟩⟩
    let w : World Hash.State := ⟨⟨true,0⟩,1,.empty,⟨fun _ => [⟨0,16⟩],1⟩,0⟩
    ¬ Restored w (whook T g (.procFork 0 1 calm none none) w) := by
  decide

/-- A hook handler gives back interrupts, preemption and `usage`, under every configuration of the
callbacks, exactly if it does nothing or if `usage` can be counted and, where it follows the fork
of a tracked parent, interrupts are disabled at entry. -/
theorem context_restored_iff {Task σ : Type} (T : ExecTracker Task σ) (g : Globals)
    (calls : List ConfigCall) (enabled : Bool) (e : HookEvent Task) (w : World σ) :
    let g := { g with
      shook := { calls.foldl configure dummies with shookEnabled := enabled } }
    Restored w (whook T g e w) ↔
      ¬ Runs g ∨ Countable w.usage ∧ (Follows T g w e → w.exec.irqs = false) := by
  intro g
  have hconfigured := configured_foldl calls
  have hg : Configured g.shook :=
    ⟨hconfigured.schedIn,hconfigured.procFork,hconfigured.procExit,hconfigured.onAttach,
      hconfigured.onDetach⟩
  by_cases hruns : Runs g
  · rw [or_iff_right (not_not.mpr hruns)]
    exact whook_restored_iff hg hruns e w
  · rw [whook_eq_handle,handle_of_not_runs hruns]
    exact iff_of_true ⟨rfl,rfl⟩ (.inl hruns)

end HookContext
end PmuMin
