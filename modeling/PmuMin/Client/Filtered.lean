import PmuMin.Client.Period

/-! Sampling with the thread filter: `client_hook_sched_in` turns the counters of a CPU on and off
as tasks come and go, over the counters that run, wrap and raise their PMIs. -/
namespace PmuMin.Filtered
open Machine Pmu

/-- The counters under the scheduler; for each CPU `cameInTracked` remembers whether the task it
runs was tracked when it was switched in, or when the client was loaded, and `sinceLoad` whether
the CPU has run it since then. -/
structure State (Cpu Task : Type) where
  pmu : Pmu.State Cpu Task
  threadFilter : Bool
  current : Cpu → Task
  tracked : Task → Bool
  cameInTracked : Cpu → Bool
  sinceLoad : Cpu → Bool

/-- A tick of the event that the counters count, or what the scheduler and the tracker do. -/
inductive Input (Cpu Task : Type)
  | tick (cpu : Cpu) (user : Bool)
  | sched (e : Gating.Event Cpu Task)

variable {Cpu Task : Type}

/-- The client as loaded: the counters run on every CPU, whatever its task. -/
def load (info : Cpuid10) (reg : ℤ) (writes : List (ℤ × BitVec 32)) (v : PmiVector)
    (pcpu : Cpu → Pcpu Task) (current : Cpu → Task) (tracked : Task → Bool) : State Cpu Task :=
  { pmu := (Pmu.load info reg writes (boot v pcpu)).2
    threadFilter := true
    current
    tracked
    cameInTracked := fun cpu => tracked (current cpu)
    sinceLoad := fun _ => true }

/-- The CPU runs a task that came in tracked, or that it has run since the load. -/
def State.counted (s : State Cpu Task) (cpu : Cpu) : Bool :=
  s.cameInTracked cpu || s.sinceLoad cpu

/-- What the gating of the counters looks at. -/
def State.traced (s : State Cpu Task) : Gating.Traced Cpu Task :=
  ⟨⟨s.threadFilter,s.pmu.gblNrPmcFixed,fun cpu => (s.pmu.pcpu cpu).globalCtrl,s.current,s.tracked⟩,
    s.counted⟩

section Step
variable [DecidableEq Cpu]

/-- The calls of `client_hook_sched_in` that gate the counters of the CPU. -/
def clientHookSchedIn (s : State Cpu Task) (cpu : Cpu) (prev next : Task) :
    List (Pmu.Input Cpu Task) :=
  if !s.threadFilter then []
  else
    let prevEn := s.tracked prev
    let nextEn := s.tracked next
    if prevEn then if !nextEn then [.disable cpu] else []
    else if nextEn then [.enable cpu]
    else []

variable [DecidableEq Task]

def next (s : State Cpu Task) : Input Cpu Task → State Cpu Task
  | .tick cpu user => { s with pmu := event s.pmu cpu (s.current cpu) user }
  | .sched (.switch cpu task) =>
    { s with
      pmu := (clientHookSchedIn s cpu (s.current cpu) task).foldl input s.pmu
      current := Function.update s.current cpu task
      cameInTracked := Function.update s.cameInTracked cpu (s.tracked task)
      sinceLoad := Function.update s.sinceLoad cpu false }
  | .sched (.register task added) =>
    if added then { s with tracked := Function.update s.tracked task true } else s
  | .sched (.fork cpu child added) =>
    if s.tracked (s.current cpu) && added then
      { s with tracked := Function.update s.tracked child true }
    else s
  | .sched (.exit cpu) => { s with tracked := Function.update s.tracked (s.current cpu) false }

/-- Whenever two tasks that agree in being tracked follow each other on a CPU, the outgoing one is
still tracked if and only if it was when it was switched in; one that the CPU has run since the load
is tracked. -/
def StatusKept (s : State Cpu Task) : Input Cpu Task → Prop
  | .tick _ _ => True
  | .sched e => Gating.StatusKept s.traced e

/-- A tick on the CPU while it runs a task that came in tracked, or that it has run since the
load. -/
def TrackedTick (cpu : Cpu) (s : State Cpu Task) : Input Cpu Task → Prop
  | .tick cpu' _ => cpu' = cpu ∧ s.counted cpu = true
  | .sched _ => False

instance (cpu : Cpu) (s : State Cpu Task) : ∀ i, Decidable (TrackedTick cpu s i)
  | .tick .. => inferInstanceAs (Decidable (_ ∧ _))
  | .sched _ => inferInstanceAs (Decidable False)

/-- What an input amounts to for the counters. -/
def calls (s : State Cpu Task) : Input Cpu Task → List (Pmu.Input Cpu Task)
  | .tick cpu user => [.event cpu (s.current cpu) user]
  | .sched (.switch cpu task) => clientHookSchedIn s cpu (s.current cpu) task
  | .sched _ => []

def inputs : State Cpu Task → List (Input Cpu Task) → List (Pmu.Input Cpu Task)
  | _,[] => []
  | s,i :: is => calls s i ++ inputs (next s i) is

end Step

section Runs
variable [DecidableEq Cpu] [DecidableEq Task] {s : State Cpu Task}

omit [DecidableEq Task] in
lemma counted_switch (s : State Cpu Task) (pmu : Pmu.State Cpu Task) (current : Cpu → Task)
    (cpu : Cpu) (came : Bool) :
    ({ s with
      pmu
      current
      cameInTracked := Function.update s.cameInTracked cpu came
      sinceLoad := Function.update s.sinceLoad cpu false } : State Cpu Task).counted =
        Function.update s.counted cpu came := by
  funext c
  by_cases hc : c = cpu
  · subst hc
    simp [State.counted]
  · simp [State.counted,hc]

/-- The scheduler and the tracker gate the counters as in a run without ticks. -/
lemma traced_sched (s : State Cpu Task) (e : Gating.Event Cpu Task) :
    (next s (.sched e)).traced = s.traced.step e := by
  cases e with
  | switch cpu task =>
    have hdisable : (fun c => ((input s.pmu (.disable cpu)).pcpu c).globalCtrl) =
        Function.update (fun c => (s.pmu.pcpu c).globalCtrl) cpu 0 := by
      funext c
      by_cases hc : c = cpu
      · subst hc
        simp [input,disablePmcsLocal]
      · simp [input,hc]
    have henable : (fun c => ((input s.pmu (.enable cpu)).pcpu c).globalCtrl) =
        Function.update (fun c => (s.pmu.pcpu c).globalCtrl) cpu
          (Gating.fixedPmcsToBitsMask s.pmu.gblNrPmcFixed) := by
      funext c
      by_cases hc : c = cpu
      · subst hc
        simp [input,enablePmcsLocal]
      · simp [input,hc]
    simp only [State.traced,next,Gating.Traced.step,counted_switch]
    cases hf : s.threadFilter <;> cases hp : s.tracked (s.current cpu) <;>
      cases hn : s.tracked task <;>
      simp only [Gating.step,Gating.clientHookSchedIn,clientHookSchedIn,Gating.disablePmcsLocal,
        Gating.enablePmcsLocal,hf,hp,hn,Bool.not_true,Bool.not_false,if_true,Bool.false_eq_true,
        if_false,List.foldl_cons,List.foldl_nil,hdisable,henable] <;> rfl
  | register task added => cases added <;> rfl
  | fork cpu child added =>
    by_cases hadd : (s.tracked (s.current cpu) && added) = true
    · simp only [next,Gating.Traced.step,Gating.step,State.traced,hadd,if_true]
      rfl
    · simp only [next,Gating.Traced.step,Gating.step,State.traced,hadd,if_false,Bool.false_eq_true]
  | exit cpu => rfl

lemma traced_tick (h : Ready s.pmu) (cpu : Cpu) (user : Bool) :
    (next s (.tick cpu user)).traced = s.traced := by
  by_cases hc : Counting s.pmu cpu user
  · obtain ⟨p',hevent,-,hctrl,-⟩ := event_of_counting (s.current cpu) h hc
    have hglobal : (fun c => ((event s.pmu cpu (s.current cpu) user).pcpu c).globalCtrl) =
        fun c => (s.pmu.pcpu c).globalCtrl := by
      funext c
      rw [hevent]
      by_cases hcpu : c = cpu
      · subst hcpu
        simp only [Function.update_self,hctrl]
      · simp only [Function.update_of_ne hcpu]
    have hnr : (event s.pmu cpu (s.current cpu) user).gblNrPmcFixed = s.pmu.gblNrPmcFixed := by
      rw [hevent]
    simp only [next,State.traced,hglobal,hnr]
    rfl
  · have hevent : event s.pmu cpu (s.current cpu) user = s.pmu := if_neg hc
    simp only [next,hevent]

/-- What holds of the counters and of their gating together. -/
structure Inv (s : State Cpu Task) : Prop where
  ready : Ready s.pmu
  gated : Gating.Inv s.traced

omit [DecidableEq Task] in
lemma foldl_input_ready {pmu : Pmu.State Cpu Task} (h : Ready pmu)
    (is : List (Pmu.Input Cpu Task)) : Ready (is.foldl input pmu) := by
  induction is generalizing pmu with
  | nil => exact h
  | cons i is ih => exact ih (h.input i)

theorem Inv.next (h : Inv s) {i : Input Cpu Task} (hk : StatusKept s i) : Inv (next s i) := by
  cases i with
  | tick cpu user =>
    refine ⟨?_,by rw [traced_tick h.ready]; exact h.gated⟩
    exact h.ready.input (.event cpu (s.current cpu) user)
  | sched e =>
    refine ⟨?_,by rw [traced_sched]; exact Gating.inv_step h.gated e hk⟩
    cases e with
    | switch cpu task => exact foldl_input_ready h.ready _
    | register task added => cases added <;> exact h.ready
    | fork cpu child added =>
      simp only [Filtered.next]
      split <;> exact h.ready
    | exit cpu => exact h.ready

omit [DecidableEq Cpu] [DecidableEq Task] in
/-- The counters of a CPU are enabled for a task that came in tracked, and at the load. -/
lemma Inv.enabled (h : Inv s) (cpu : Cpu) : Enabled cpu s.pmu = s.counted cpu := by
  have hctrl : (s.pmu.pcpu cpu).globalCtrl =
      if s.counted cpu then Gating.fixedPmcsToBitsMask s.pmu.gblNrPmcFixed else 0 :=
    h.gated.ctrl cpu
  rw [Enabled,hctrl]
  by_cases hin : s.counted cpu = true
  · rw [if_pos hin,hin]
    exact getLsbD_fixedPmcsToBitsMask h.ready.fixed
  · rw [if_neg hin,Bool.eq_false_iff.mpr hin]
    exact BitVec.getLsbD_zero

lemma next_pmu (s : State Cpu Task) (i : Input Cpu Task) :
    (next s i).pmu = (calls s i).foldl input s.pmu := by
  cases i with
  | tick cpu user => rfl
  | sched e =>
    cases e with
    | switch cpu task => rfl
    | register task added => cases added <;> rfl
    | fork cpu child added =>
      rw [next]
      split <;> rfl
    | exit cpu => rfl

omit [DecidableEq Cpu] [DecidableEq Task] in
lemma calls_ne_setPeriod (s : State Cpu Task) (i : Input Cpu Task) :
    ∀ j ∈ calls s i, ∀ info w, j ≠ .setPeriod info w := by
  intro j hj info w hset
  subst hset
  cases i with
  | tick cpu user => simp [calls] at hj
  | sched e =>
    cases e with
    | switch cpu task =>
      simp only [calls,clientHookSchedIn] at hj
      split_ifs at hj <;> simp at hj
    | register task added => exact absurd hj List.not_mem_nil
    | fork cpu child added => exact absurd hj List.not_mem_nil
    | exit cpu => exact absurd hj List.not_mem_nil

/-- The run of the counters is that of the calls, none of which writes the parameter. -/
lemma foldl_inputs (s : State Cpu Task) (is : List (Input Cpu Task)) :
    (is.foldl next s).pmu = (inputs s is).foldl input s.pmu ∧
      ∀ i ∈ inputs s is, ∀ info w, i ≠ .setPeriod info w := by
  induction is generalizing s with
  | nil => exact ⟨rfl,fun i hi => absurd hi List.not_mem_nil⟩
  | cons i is ih =>
    obtain ⟨hrun,hnone⟩ := ih (next s i)
    refine ⟨?_,fun j hj => ?_⟩
    · rw [List.foldl_cons,inputs,List.foldl_append,hrun,next_pmu]
    · exact (List.mem_append.mp hj).elim (calls_ne_setPeriod s i j) (hnone j)

omit [DecidableEq Task] in
lemma Inv.ticks_calls (h : Inv s) (cpu : Cpu) (i : Input Cpu Task) :
    ticks input (Counts cpu) s.pmu (calls s i) = if TrackedTick cpu s i then 1 else 0 := by
  cases i with
  | tick cpu' user =>
    have hcounts : Counts cpu s.pmu (.event cpu' (s.current cpu') user) ↔
        TrackedTick cpu s (.tick cpu' user) := by
      rw [Counts,TrackedTick,h.ready.counting_iff,← h.enabled]
      rfl
    simp only [calls,ticks,hcounts,Nat.add_zero]
  | sched e =>
    have hnone : ¬ TrackedTick cpu s (.sched e) := id
    rw [if_neg hnone]
    cases e with
    | switch cpu' task =>
      simp only [calls,clientHookSchedIn]
      split_ifs <;> simp [ticks,Counts]
    | register task added => rfl
    | fork cpu' child added => rfl
    | exit cpu' => rfl

lemma ticks_inputs (cpu : Cpu) {is : List (Input Cpu Task)} (h : Inv s)
    (hk : Admits next StatusKept s is) :
    ticks input (Counts cpu) s.pmu (inputs s is) = ticks next (TrackedTick cpu) s is := by
  induction is generalizing s with
  | nil => rfl
  | cons i is ih =>
    obtain ⟨hi,his⟩ := hk
    rw [inputs,ticks_append,h.ticks_calls,← next_pmu,ih (h.next hi) his,ticks]

variable {info : Cpuid10} {reg : ℤ} {v : PmiVector}

/-- With the thread filter on, and as long as no two tasks that agree in being tracked follow each
other on a CPU after the status of the first has changed, a CPU samples once for every `2^k` ticks
that happen while it runs a task that came in tracked, or that it has run since the load: the ticks
of the other tasks are neither counted nor sampled, and a count that a switch interrupts goes on
with the next tracked task. -/
theorem filtered_samples (hlen : ¬ info.maskLength < 7) (hfixed : 2 ≤ info.numCountersFixed.toNat)
    (hreg : Registers v reg) (writes : List (ℤ × BitVec 32)) (pcpu : Cpu → Pcpu Task)
    (current : Cpu → Task) (tracked : Task → Bool) (is : List (Input Cpu Task))
    (hkept : Admits next StatusKept (load info reg writes v pcpu current tracked) is) (cpu : Cpu) :
    let s := load info reg writes v pcpu current tracked
    ∃ k, 12 ≤ k ∧ k ≤ 48 ∧ s.pmu.resetPeriod.toNat = 2^k - 1 ∧
      samples cpu (is.foldl next s).pmu =
        (pcpu cpu).snapshots.length + ticks next (TrackedTick cpu) s is / 2^k := by
  obtain ⟨hready,hcpus⟩ := load_ready hlen hfixed hreg writes pcpu
  have hinv : Inv (load info reg writes v pcpu current tracked) := by
    refine ⟨hready,rfl,?_,fun c => ?_⟩
    · intro hzero
      have hfixedPmi := hready.fixed
      change (Pmu.load info reg writes (boot v pcpu)).2.gblNrPmcFixed = 0 at hzero
      rw [hzero] at hfixedPmi
      exact absurd hfixedPmi (Nat.not_lt_zero _)
    · refine (load_globalCtrl hreg writes pcpu c).trans (Eq.symm ?_)
      exact if_pos (Bool.or_true _)
  obtain ⟨hleft,hsnap,-⟩ := hcpus cpu
  obtain ⟨hrun,hnone⟩ := foldl_inputs (load info reg writes v pcpu current tracked) is
  obtain ⟨k,hlow,hhigh,hnat,hsamples⟩ := hready.samples_eq hleft hnone
  refine ⟨k,hlow,hhigh,hnat,?_⟩
  rw [hrun]
  refine hsamples.trans ?_
  rw [samples,hsnap]
  exact congrArg (fun n => _ + n / 2^k) (ticks_inputs cpu hinv hkept)

/-- One CPU and two tasks, the first of them registered before the second comes in. -/
theorem filtered_samples_switched :
    let p : Pcpu (Fin 2) := ⟨0,0,0,0,0,fun _ => 0,0,0,0,[]⟩
    let s := load ⟨7,4,3⟩ RECODE_PMI.toNat [(0,12#32)] .irq (fun _ : Unit => p) (fun _ => 0)
      (fun _ => false)
    let is := [.sched (.register 0 true),.tick () true,.sched (.switch () 1),.tick () false]
    ∃ k, 12 ≤ k ∧ k ≤ 48 ∧ s.pmu.resetPeriod.toNat = 2^k - 1 ∧
      samples () (is.foldl next s).pmu = 0 + ticks next (TrackedTick ()) s is / 2^k :=
  filtered_samples (by decide) (by decide) (show Registers .irq RECODE_PMI.toNat from rfl)
    [(0,12#32)] (fun _ => ⟨0,0,0,0,0,fun _ => 0,0,0,0,[]⟩) (fun _ => 0) (fun _ => false)
    [.sched (.register 0 true),.tick () true,.sched (.switch () 1),.tick () false]
    ⟨trivial,trivial,.inl (by decide),trivial,trivial⟩ ()

end Runs
end PmuMin.Filtered
