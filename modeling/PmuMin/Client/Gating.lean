import PmuMin.Tracker.Interface
import PmuMin.Library.BitField

/-! Gating the counters by task: `client_hook_sched_in` of `client_module.c` over the enable
register of each CPU, with the tracker seen as the set of tracked tasks. -/
namespace PmuMin.Gating
open Machine

def PERF_GLOBAL_CTRL_FIXED0_SHIFT : ℕ := 32

/-- `FIXED_PMCS_TO_BITS_MASK`; the number of fixed counters is a five-bit field of CPUID. -/
def fixedPmcsToBitsMask (gblNrPmcFixed : BitVec 5) : Word :=
  ((1#64 <<< gblNrPmcFixed.toNat) - 1) <<< PERF_GLOBAL_CTRL_FIXED0_SHIFT

/-- `globalCtrl` is MSR_CORE_PERF_GLOBAL_CTRL, `current` the task a CPU runs. -/
structure State (Cpu Task : Type) where
  threadFilter : Bool
  gblNrPmcFixed : BitVec 5
  globalCtrl : Cpu → Word
  current : Cpu → Task
  tracked : Task → Bool

inductive Event (Cpu Task : Type)
  | switch (cpu : Cpu) (next : Task)
  | register (task : Task) (added : Bool)
  | fork (cpu : Cpu) (child : Task) (added : Bool)
  | exit (cpu : Cpu)
  deriving DecidableEq, Repr

variable {Cpu Task : Type}

def enablePmcsGlobal (s : State Cpu Task) : State Cpu Task :=
  { s with globalCtrl := fun _ => fixedPmcsToBitsMask s.gblNrPmcFixed }

/-- The state `client_module_init` leaves: whatever the registers held, `pmi_init` has enabled
the counters on every CPU. -/
def clientModuleInit (gblNrPmcFixed : BitVec 5) (ctrl : Cpu → Word) (current : Cpu → Task)
    (tracked : Task → Bool) : State Cpu Task :=
  enablePmcsGlobal ⟨true,gblNrPmcFixed,ctrl,current,tracked⟩

section Step
variable [DecidableEq Cpu]

def enablePmcsLocal (s : State Cpu Task) (cpu : Cpu) : State Cpu Task :=
  { s with globalCtrl := Function.update s.globalCtrl cpu (fixedPmcsToBitsMask s.gblNrPmcFixed) }

def disablePmcsLocal (s : State Cpu Task) (cpu : Cpu) : State Cpu Task :=
  { s with globalCtrl := Function.update s.globalCtrl cpu 0 }

def clientHookSchedIn (s : State Cpu Task) (cpu : Cpu) (prev next : Task) : State Cpu Task :=
  if !s.threadFilter then s
  else
    let prevEn := s.tracked prev
    let nextEn := s.tracked next
    if prevEn then if !nextEn then disablePmcsLocal s cpu else s
    else if nextEn then enablePmcsLocal s cpu
    else s

variable [DecidableEq Task]

/-- `added` tells whether the tracker took the task in. -/
def step (s : State Cpu Task) : Event Cpu Task → State Cpu Task
  | .switch cpu next =>
    let s := clientHookSchedIn s cpu (s.current cpu) next
    { s with current := Function.update s.current cpu next }
  | .register task added =>
    if added then { s with tracked := Function.update s.tracked task true } else s
  | .fork cpu child added =>
    if s.tracked (s.current cpu) && added then
      { s with tracked := Function.update s.tracked child true }
    else s
  | .exit cpu => { s with tracked := Function.update s.tracked (s.current cpu) false }

/-- The counters of the CPU are on exactly for a tracked task. -/
def Gated (s : State Cpu Task) (cpu : Cpu) : Prop :=
  s.globalCtrl cpu =
    if s.tracked (s.current cpu) then fixedPmcsToBitsMask s.gblNrPmcFixed else 0

instance (s : State Cpu Task) : DecidablePred (Gated s) := fun _ => by
  unfold Gated; infer_instance

/-- A context switch leaves the counters of its CPU gated. -/
def GatesSwitch (s : State Cpu Task) : Event Cpu Task → Prop
  | .switch cpu next => Gated (step s (.switch cpu next)) cpu
  | _ => True

/-- A run with, for each CPU, whether the task it runs was tracked when it was switched in; the
task a CPU runs when the client is loaded counts as tracked. -/
structure Traced (Cpu Task : Type) where
  state : State Cpu Task
  cameInTracked : Cpu → Bool

def Traced.step (p : Traced Cpu Task) (e : Event Cpu Task) : Traced Cpu Task where
  state := Gating.step p.state e
  cameInTracked :=
    match e with
    | .switch cpu next => Function.update p.cameInTracked cpu (p.state.tracked next)
    | _ => p.cameInTracked

/-- The two tasks of a switch differ in being tracked, or the outgoing one is still what it was
when it was switched in. -/
def StatusKept (p : Traced Cpu Task) : Event Cpu Task → Prop
  | .switch cpu next =>
    p.state.tracked (p.state.current cpu) ≠ p.state.tracked next ∨
      p.cameInTracked cpu = p.state.tracked (p.state.current cpu)
  | _ => True

end Step

theorem fixedPmcsToBitsMask_eq_zero_iff (n : BitVec 5) : fixedPmcsToBitsMask n = 0 ↔ n = 0 := by
  revert n
  decide

@[simp] lemma fixedPmcsToBitsMask_zero : fixedPmcsToBitsMask 0#5 = 0#64 := by decide

section Switch
variable [DecidableEq Cpu] (s : State Cpu Task) (cpu : Cpu) (prev next : Task)

/-- The register after the hook, on the CPU of the switch. -/
theorem clientHookSchedIn_ctrl (h : s.threadFilter = true) :
    (clientHookSchedIn s cpu prev next).globalCtrl cpu =
      if s.tracked prev = s.tracked next then s.globalCtrl cpu
      else if s.tracked next then fixedPmcsToBitsMask s.gblNrPmcFixed else 0 := by
  cases hp : s.tracked prev <;> cases hn : s.tracked next <;>
    simp [clientHookSchedIn,h,hp,hn,enablePmcsLocal,disablePmcsLocal]

/-- Nothing else changes, and no other CPU. -/
theorem clientHookSchedIn_frame :
    (clientHookSchedIn s cpu prev next).threadFilter = s.threadFilter ∧
    (clientHookSchedIn s cpu prev next).gblNrPmcFixed = s.gblNrPmcFixed ∧
    (clientHookSchedIn s cpu prev next).current = s.current ∧
    (clientHookSchedIn s cpu prev next).tracked = s.tracked ∧
    ∀ c, c ≠ cpu → (clientHookSchedIn s cpu prev next).globalCtrl c = s.globalCtrl c := by
  unfold clientHookSchedIn enablePmcsLocal disablePmcsLocal
  refine ⟨?_,?_,?_,?_,fun c hc => ?_⟩ <;> dsimp only <;> split_ifs <;>
    simp_all [Function.update_of_ne]

end Switch

section Runs
variable [DecidableEq Cpu] [DecidableEq Task]

/-- A switch gates its CPU exactly if the outgoing and the incoming task differ, or the register
already was what the incoming task needs. -/
theorem gated_switch_iff (s : State Cpu Task) (h : s.threadFilter = true) (cpu : Cpu)
    (next : Task) :
    Gated (step s (.switch cpu next)) cpu ↔
      s.tracked (s.current cpu) ≠ s.tracked next ∨
        s.globalCtrl cpu =
          if s.tracked next then fixedPmcsToBitsMask s.gblNrPmcFixed else 0 := by
  obtain ⟨-,hn,-,ht,-⟩ := clientHookSchedIn_frame s cpu (s.current cpu) next
  simp only [Gated,step,Function.update_self,hn,ht,clientHookSchedIn_ctrl s cpu _ next h]
  by_cases he : s.tracked (s.current cpu) = s.tracked next <;> simp [he]

/-- The register of a CPU is what the task it runs needed when that task was switched in. -/
structure Inv (p : Traced Cpu Task) : Prop where
  filter : p.state.threadFilter = true
  counters : p.state.gblNrPmcFixed ≠ 0
  ctrl : ∀ cpu, p.state.globalCtrl cpu =
    if p.cameInTracked cpu then fixedPmcsToBitsMask p.state.gblNrPmcFixed else 0

lemma ite_mask_inj {n : BitVec 5} (hn : n ≠ 0) {a b : Bool}
    (h : (if a then fixedPmcsToBitsMask n else 0) = if b then fixedPmcsToBitsMask n else 0) :
    a = b := by
  have hm : fixedPmcsToBitsMask n ≠ 0 := mt (fixedPmcsToBitsMask_eq_zero_iff n).mp hn
  cases a <;> cases b <;> simp_all

theorem gatesSwitch_iff {p : Traced Cpu Task} (h : Inv p) (e : Event Cpu Task) :
    GatesSwitch p.state e ↔ StatusKept p e := by
  cases e with
  | switch cpu next =>
    simp only [GatesSwitch,StatusKept,gated_switch_iff p.state h.filter,h.ctrl cpu]
    by_cases he : p.state.tracked (p.state.current cpu) = p.state.tracked next
    · rw [he]
      constructor
      · rintro (hne | hc)
        · exact absurd rfl hne
        · exact Or.inr (ite_mask_inj h.counters hc)
      · rintro (hne | hc)
        · exact absurd rfl hne
        · exact Or.inr (by rw [hc])
    · simp [he]
  | register | fork | exit => exact Iff.rfl

theorem inv_step {p : Traced Cpu Task} (h : Inv p) (e : Event Cpu Task) (hk : StatusKept p e) :
    Inv (p.step e) := by
  obtain ⟨hf,hn,hc⟩ := h
  cases e with
  | switch cpu next =>
    have hg := (gatesSwitch_iff ⟨hf,hn,hc⟩ (.switch cpu next)).mpr hk
    obtain ⟨hf',hn',-,ht',hframe⟩ :=
      clientHookSchedIn_frame p.state cpu (p.state.current cpu) next
    refine ⟨?_,?_,fun c => ?_⟩
    · simpa [Traced.step,step,hf'] using hf
    · simpa [Traced.step,step,hn'] using hn
    · by_cases hcpu : c = cpu
      · subst hcpu
        simpa [GatesSwitch,Gated,Traced.step,step,ht'] using hg
      · simp [Traced.step,step,Function.update_of_ne hcpu,hframe c hcpu,hn',hc c]
  | register task added => cases added <;> exact ⟨hf,hn,hc⟩
  | fork cpu child added =>
    simp only [Traced.step,step]
    split <;> exact ⟨hf,hn,hc⟩
  | exit cpu => exact ⟨hf,hn,hc⟩

/-- On a machine without fixed counters the two register values coincide. -/
lemma gatesSwitch_of_no_counters {s : State Cpu Task}
    (h : s.gblNrPmcFixed = 0 ∧ ∀ cpu, s.globalCtrl cpu = 0) (e : Event Cpu Task) :
    GatesSwitch s e ∧ (step s e).gblNrPmcFixed = 0 ∧ ∀ cpu, (step s e).globalCtrl cpu = 0 := by
  obtain ⟨hn,hc⟩ := h
  have hhook : ∀ cpu prev next,
      (clientHookSchedIn s cpu prev next).gblNrPmcFixed = 0 ∧
        ∀ c, (clientHookSchedIn s cpu prev next).globalCtrl c = 0 := by
    intro cpu prev next
    unfold clientHookSchedIn enablePmcsLocal disablePmcsLocal
    dsimp only
    split_ifs <;> simp [hn,hc,Function.update_apply]
  cases e with
  | switch cpu next =>
    obtain ⟨hn',hc'⟩ := hhook cpu (s.current cpu) next
    refine ⟨?_,hn',hc'⟩
    simp [GatesSwitch,Gated,step,hn',hc']
  | register task added => cases added <;> exact ⟨trivial,hn,hc⟩
  | fork cpu child added =>
    simp only [step]
    split <;> exact ⟨trivial,hn,hc⟩
  | exit cpu => exact ⟨trivial,hn,hc⟩

/-- Exactly which runs keep the counters gated at every switch: any run on a machine without
fixed counters, and otherwise the runs in which, whenever two tasks that agree in being tracked
follow each other on a CPU, the outgoing one is still tracked if and only if it was when it was
switched in. -/
theorem gates_every_switch_iff (gblNrPmcFixed : BitVec 5) (ctrl : Cpu → Word)
    (current : Cpu → Task) (tracked : Task → Bool) (events : List (Event Cpu Task)) :
    let s := clientModuleInit gblNrPmcFixed ctrl current tracked
    Admits step GatesSwitch s events ↔
      gblNrPmcFixed = 0 ∨ Admits Traced.step StatusKept ⟨s,fun _ => true⟩ events := by
  intro s
  by_cases hn : gblNrPmcFixed = 0
  · have hinit : s.gblNrPmcFixed = 0 ∧ ∀ cpu, s.globalCtrl cpu = 0 :=
      ⟨hn,fun _ => (fixedPmcsToBitsMask_eq_zero_iff _).mpr hn⟩
    have hiff : Admits step GatesSwitch s events ↔ Admits step (fun _ _ => True) s events :=
      admits_iff_of_invariant (I := fun s => s.gblNrPmcFixed = 0 ∧ ∀ cpu, s.globalCtrl cpu = 0)
        (fun s e hs => iff_true_intro (gatesSwitch_of_no_counters hs e).1)
        (fun s e hs _ => (gatesSwitch_of_no_counters hs e).2) events hinit
    exact iff_of_true (hiff.mpr (admits_of_forall fun _ _ _ => trivial)) (Or.inl hn)
  · have hinv : Inv (⟨s,fun _ => true⟩ : Traced Cpu Task) := ⟨rfl,hn,fun _ => rfl⟩
    have hstate : ∀ (p : Traced Cpu Task) e, (p.step e).state = step p.state e := fun _ _ => rfl
    rw [or_iff_right hn,← admits_comap Traced.state hstate ⟨s,fun _ => true⟩]
    exact admits_iff_of_invariant (fun p e hp => gatesSwitch_iff hp e)
      (fun p e hp hk => inv_step hp e hk) events hinv

/-- The first switch after loading, between two tasks that are not tracked. -/
theorem untracked_task_counted :
    ¬ Admits step GatesSwitch
      (clientModuleInit 3 (fun _ : Unit => 0) (fun _ => (0 : Fin 2)) (fun _ => false))
      [.switch () 1] := by
  intro h
  have hg : Gated _ () := h.1
  exact absurd hg (by decide)

end Runs
end PmuMin.Gating
