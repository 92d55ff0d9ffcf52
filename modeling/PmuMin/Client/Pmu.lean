import PmuMin.Client.Gating

/-! The PMU of the client: `pmu.c` and `pmi.c` over the registers and the per-CPU variables of
each CPU. CONFIG_RUNNING_ON_VM is off and FAST_IRQ_ENABLED is defined. -/
namespace PmuMin.Pmu
open Machine Gating

inductive PmiVector
  | nmi
  | irq
  deriving DecidableEq, Repr

def LVT_NMI : BitVec 32 := 0x4#32 <<< 8
def RECODE_PMI : BitVec 32 := 239#32
def APIC_LVT_MASKED : BitVec 32 := 1#32 <<< 16
def PERF_GLOBAL_CTRL_FIXED0_MASK : Word := 1#64 <<< PERF_GLOBAL_CTRL_FIXED0_SHIFT
def PERF_COND_CHGD_IGNORE_MASK : Word := (1#64 <<< 63) - 1

/-- `PMC_TRIM`. -/
def pmcTrim (n : Word) : Word := n &&& ((1#64 <<< 48) - 1)

/-- What the driver uses of CPUID leaf 10. -/
structure Cpuid10 where
  maskLength : BitVec 8
  numCounters : BitVec 8
  numCountersFixed : BitVec 5
  deriving DecidableEq, Repr

/-- The registers of one CPU, `pcpu_lvt_bkp` and `pcpu_pmi_counter`; and the history: how many
`apic_eoi` it has issued and the tasks it has called `snapshot_pmc` for, the last one first. -/
structure Pcpu (Task : Type) where
  lvtpc : BitVec 32
  globalCtrl : Word
  globalStatus : Word
  debugctl : Word
  fixedCtrCtrl : Word
  fixedCtr : ℕ → Word
  lvtBkp : BitVec 32
  pmiCounter : BitVec 32
  eois : ℕ
  snapshots : List Task

/-- The globals, with whether the NMI handler and the fast IRQ are registered. -/
structure State (Cpu Task : Type) where
  machineInfoRead : Bool
  gblFixedCtrl : Word
  gblFixedPmcPmi : ℕ
  gblNrPmcFixed : BitVec 5
  gblNrPmcGeneral : BitVec 8
  resetPeriod : Word
  pmiVector : PmiVector
  nmiHandler : Bool
  fastIrq : Bool
  pcpu : Cpu → Pcpu Task

/-- A performance monitor interrupt: its CPU, the task that runs there, and the global status. -/
structure Pmi (Cpu Task : Type) where
  cpu : Cpu
  current : Task
  globalStatus : Word
  deriving DecidableEq, Repr

variable {Cpu Task : Type}

def onEachCpu (f : Pcpu Task → Pcpu Task) (s : State Cpu Task) : State Cpu Task :=
  { s with pcpu := fun cpu => f (s.pcpu cpu) }

/-- `WRITE_FIXED_PMC`. -/
def writeFixedPmc (n : ℕ) (v : Word) (p : Pcpu Task) : Pcpu Task :=
  { p with fixedCtr := Function.update p.fixedCtr n (pmcTrim v) }

/-- What LVTPC is set to, in three places of the source. -/
def lvtEntry : PmiVector → BitVec 32
  | .nmi => LVT_NMI
  | .irq => RECODE_PMI

def getMachineConfiguration (info : Cpuid10) (s : State Cpu Task) : State Cpu Task :=
  if s.machineInfoRead then s
  else if info.maskLength < 7 then s
  else
    { s with
      gblNrPmcGeneral := info.numCounters
      gblNrPmcFixed := info.numCountersFixed
      machineInfoRead := true }

def enablePmcsLocal (s : State Cpu Task) (p : Pcpu Task) : Pcpu Task :=
  { p with globalCtrl := fixedPmcsToBitsMask s.gblNrPmcFixed }

def disablePmcsLocal (p : Pcpu Task) : Pcpu Task := { p with globalCtrl := 0 }

def enablePmcsGlobal (s : State Cpu Task) : State Cpu Task := onEachCpu (enablePmcsLocal s) s

def disablePmcsGlobal (s : State Cpu Task) : State Cpu Task := onEachCpu disablePmcsLocal s

/-- `__init_pmu_local`. A write to the overflow control register clears the status bits it sets. -/
def initPmuLocal (s : State Cpu Task) (p : Pcpu Task) : Pcpu Task :=
  { p with
    lvtpc := lvtEntry s.pmiVector
    globalStatus := p.globalStatus &&& ~~~p.globalStatus
    debugctl := 1#64 <<< 12
    fixedCtr := (List.range s.gblNrPmcFixed.toNat).foldl (fun ctr pmc =>
      Function.update ctr pmc
        (if pmc = s.gblFixedPmcPmi then pmcTrim (pmcTrim (~~~s.resetPeriod)) else pmcTrim 0))
      p.fixedCtr
    fixedCtrCtrl := s.gblFixedCtrl }

def pmuGlobalInit (s : State Cpu Task) : ℤ × State Cpu Task :=
  let ctrl := (List.range s.gblNrPmcFixed.toNat).foldl (fun (ctrl : Word) pmc =>
    let ctrl := if pmc = s.gblFixedPmcPmi then ctrl ||| ((1#64 <<< 3) <<< (pmc*4)) else ctrl
    let ctrl := ctrl ||| ((1#64 <<< 1) <<< (pmc*4))
    ctrl ||| ((1#64 <<< 0) <<< (pmc*4))) s.gblFixedCtrl
  let s := { s with gblFixedCtrl := ctrl }
  (0,onEachCpu (initPmuLocal s) s)

def pmcGlobalFini (s : State Cpu Task) : State Cpu Task := onEachCpu disablePmcsLocal s

def pmiLvtSetupLocal (s : State Cpu Task) (p : Pcpu Task) : Pcpu Task :=
  { p with lvtBkp := p.lvtpc, lvtpc := lvtEntry s.pmiVector }

def pmiLvtCleanupLocal (p : Pcpu Task) : Pcpu Task := { p with lvtpc := p.lvtBkp }

/-- `reg` is the result of `__register_nmi_handler`. -/
def pmiNmiSetup (reg : ℤ) (s : State Cpu Task) : ℤ × State Cpu Task :=
  if reg ≠ 0 then (reg,s)
  else
    let s := { s with nmiHandler := true }
    (0,onEachCpu (pmiLvtSetupLocal s) s)

def pmiNmiCleanup (s : State Cpu Task) : State Cpu Task :=
  { onEachCpu pmiLvtCleanupLocal s with nmiHandler := false }

/-- `reg` is the result of `request_fast_irq`. -/
def pmiIrqSetup (reg : ℤ) (s : State Cpu Task) : ℤ × State Cpu Task :=
  if reg ≠ RECODE_PMI.toNat then (-1,s)
  else
    let s := { s with fastIrq := true }
    (0,onEachCpu (pmiLvtSetupLocal s) s)

def pmiIrqCleanup (s : State Cpu Task) : State Cpu Task := { s with fastIrq := false }

/-- The counters are enabled whether or not the handler was registered. -/
def pmiInit (reg : ℤ) (s : State Cpu Task) : ℤ × State Cpu Task :=
  let r :=
    match s.pmiVector with
    | .nmi => pmiNmiSetup reg s
    | .irq => pmiIrqSetup reg s
  (r.1,enablePmcsGlobal r.2)

def pmiFini (s : State Cpu Task) : State Cpu Task :=
  let s := disablePmcsGlobal s
  match s.pmiVector with
  | .nmi => pmiNmiCleanup s
  | .irq => pmiIrqCleanup s

def initPmu (info : Cpuid10) (reg : ℤ) (s : State Cpu Task) : ℤ × State Cpu Task :=
  let s := getMachineConfiguration info s
  let r := pmuGlobalInit s
  if r.1 ≠ 0 then r
  else
    let r := pmiInit reg r.2
    if r.1 ≠ 0 then (r.1,pmcGlobalFini r.2) else (0,r.2)

def finiPmu (s : State Cpu Task) : State Cpu Task := pmcGlobalFini (pmiFini s)

/-- `pmi_handler`, with its result. The second test takes the logical conjunction of the status
and the mask, as the source does. -/
def pmiHandler (s : State Cpu Task) (current : Task) (p : Pcpu Task) : ℕ × Pcpu Task :=
  let global := p.globalStatus
  if global = 0 then (0,p)
  else
    let noPmi := global &&& (PERF_GLOBAL_CTRL_FIXED0_MASK <<< s.gblFixedPmcPmi) = 0 ∧
      ¬ (global ≠ 0 ∧ PERF_COND_CHGD_IGNORE_MASK ≠ 0)
    let r : ℕ × Pcpu Task :=
      if noPmi then (0,p)
      else
        let p := { p with pmiCounter := p.pmiCounter + 1, snapshots := current :: p.snapshots }
        (1,writeFixedPmc s.gblFixedPmcPmi (pmcTrim (~~~s.resetPeriod)) p)
    let p := { r.2 with lvtpc := lvtEntry s.pmiVector }
    let p :=
      match s.pmiVector with
      | .nmi => p
      | .irq => { p with eois := p.eois + 1 }
    (r.1,{ p with globalStatus := p.globalStatus &&& ~~~global })

section Run
variable [DecidableEq Cpu]

/-- The local APIC masks LVTPC as it delivers the interrupt, and delivers none while it is
masked. -/
def deliver (s : State Cpu Task) (e : Pmi Cpu Task) : State Cpu Task :=
  let p := s.pcpu e.cpu
  if p.lvtpc &&& APIC_LVT_MASKED ≠ 0 then s
  else
    let p := { p with lvtpc := p.lvtpc ||| APIC_LVT_MASKED, globalStatus := e.globalStatus }
    { s with pcpu := Function.update s.pcpu e.cpu (pmiHandler s e.current p).2 }

/-- `init_pmu` and, when it succeeds, the PMIs up to `fini_pmu`. -/
def session (info : Cpuid10) (reg : ℤ) (pmis : List (Pmi Cpu Task)) (s : State Cpu Task) :
    State Cpu Task :=
  let r := initPmu info reg s
  if r.1 ≠ 0 then r.2 else finiPmu (pmis.foldl deliver r.2)

end Run

/-- The handler could be registered. -/
def Registers : PmiVector → ℤ → Prop
  | .nmi,reg => reg = 0
  | .irq,reg => reg = RECODE_PMI.toNat

instance : ∀ v reg, Decidable (Registers v reg)
  | .nmi,reg => inferInstanceAs (Decidable (reg = 0))
  | .irq,reg => inferInstanceAs (Decidable (reg = RECODE_PMI.toNat))

/-- The PMI handler of the vector is registered. -/
def State.registered (s : State Cpu Task) : Bool :=
  match s.pmiVector with
  | .nmi => s.nmiHandler
  | .irq => s.fastIrq

section Init
variable (info : Cpuid10) (reg : ℤ) (s : State Cpu Task)

@[simp] lemma getMachineConfiguration_pmiVector :
    (getMachineConfiguration info s).pmiVector = s.pmiVector := by
  unfold getMachineConfiguration
  split_ifs <;> rfl

@[simp] lemma getMachineConfiguration_nmiHandler :
    (getMachineConfiguration info s).nmiHandler = s.nmiHandler := by
  unfold getMachineConfiguration
  split_ifs <;> rfl

@[simp] lemma getMachineConfiguration_fastIrq :
    (getMachineConfiguration info s).fastIrq = s.fastIrq := by
  unfold getMachineConfiguration
  split_ifs <;> rfl

/-- The parts of the state that the PMU initialisation and the handler registration leave: each
vector backs up what `initPmuLocal` has just written, and the counters end up enabled exactly if
the handler was registered. -/
structure Inits (s t : State Cpu Task) (v : PmiVector) (ok : Prop) : Prop where
  vector : t.pmiVector = s.pmiVector
  lvtpc : ∀ cpu, (t.pcpu cpu).lvtpc = lvtEntry v
  lvtBkp : ok → ∀ cpu, (t.pcpu cpu).lvtBkp = lvtEntry v
  registered : ok → t.registered = true
  unregistered : ¬ ok → t.nmiHandler = s.nmiHandler ∧ t.fastIrq = s.fastIrq
  enabled : ok → ∀ cpu, (t.pcpu cpu).globalCtrl = fixedPmcsToBitsMask t.gblNrPmcFixed
  disabled : ¬ ok → ∀ cpu, (t.pcpu cpu).globalCtrl = 0

variable {reg s} in
/-- With the handler registered, each CPU backs up its LVTPC, sets it, and is enabled. -/
lemma pmiInit_of_registers (hreg : Registers s.pmiVector reg) :
    ∃ t : State Cpu Task, t.registered = true ∧ t.pmiVector = s.pmiVector ∧ t.pcpu = s.pcpu ∧
      pmiInit reg s = (0,enablePmcsGlobal (onEachCpu (pmiLvtSetupLocal t) t)) := by
  cases hv : s.pmiVector with
  | nmi =>
    rw [hv] at hreg
    have hzero : ¬ reg ≠ 0 := not_not.mpr hreg
    refine ⟨{ s with nmiHandler := true },?_,hv,rfl,?_⟩
    · simp only [State.registered,hv]
    · simp only [pmiInit,pmiNmiSetup,hv,if_neg hzero]
  | irq =>
    rw [hv] at hreg
    have hfast : ¬ reg ≠ RECODE_PMI.toNat := not_not.mpr hreg
    refine ⟨{ s with fastIrq := true },?_,hv,rfl,?_⟩
    · simp only [State.registered,hv]
    · simp only [pmiInit,pmiIrqSetup,hv,if_neg hfast]

variable {reg s} in
/-- Without it, the counters are enabled all the same. The kernel reports a failed registration of
the NMI handler by a negative errno; the IRQ setup does so itself. -/
lemma pmiInit_of_not_registers (hreg : ¬ Registers s.pmiVector reg) :
    (pmiInit reg s).2 = enablePmcsGlobal s ∧ (pmiInit reg s).1 ≠ 0 ∧
      ((s.pmiVector = .nmi → reg ≤ 0) → (pmiInit reg s).1 < 0) := by
  cases hv : s.pmiVector with
  | nmi =>
    rw [hv] at hreg
    have hne : reg ≠ 0 := hreg
    simp only [pmiInit,pmiNmiSetup,hv,if_pos hne]
    exact ⟨trivial,hne,fun hneg => lt_of_le_of_ne (hneg trivial) hne⟩
  | irq =>
    rw [hv] at hreg
    have hne : reg ≠ RECODE_PMI.toNat := hreg
    simp only [pmiInit,pmiIrqSetup,hv,if_pos hne]
    exact ⟨trivial,by decide,fun _ => by decide⟩

/-- `pmu_global_init` cannot fail. -/
lemma pmuGlobalInit_fst : (pmuGlobalInit s).1 = 0 := rfl

variable {info reg s} in
lemma initPmu_of_pmi (h : (pmiInit reg (pmuGlobalInit (getMachineConfiguration info s)).2).1 = 0) :
    initPmu info reg s = (0,(pmiInit reg (pmuGlobalInit (getMachineConfiguration info s)).2).2) := by
  unfold initPmu
  dsimp only
  rw [if_neg (not_not.mpr (pmuGlobalInit_fst _)),if_neg (not_not.mpr h)]

variable {info reg s} in
lemma initPmu_of_no_pmi
    (h : (pmiInit reg (pmuGlobalInit (getMachineConfiguration info s)).2).1 ≠ 0) :
    let r := pmiInit reg (pmuGlobalInit (getMachineConfiguration info s)).2
    initPmu info reg s = (r.1,pmcGlobalFini r.2) := by
  unfold initPmu
  dsimp only
  rw [if_neg (not_not.mpr (pmuGlobalInit_fst _)),if_pos h]

/-- What the PMU initialisation leaves of the vector, the handlers and LVTPC. -/
lemma pmuGlobalInit_spec :
    let t := (pmuGlobalInit (getMachineConfiguration info s)).2
    t.pmiVector = s.pmiVector ∧ t.nmiHandler = s.nmiHandler ∧ t.fastIrq = s.fastIrq ∧
      ∀ cpu, (t.pcpu cpu).lvtpc = lvtEntry s.pmiVector :=
  ⟨getMachineConfiguration_pmiVector info s,getMachineConfiguration_nmiHandler info s,
    getMachineConfiguration_fastIrq info s,
    fun _ => congrArg lvtEntry (getMachineConfiguration_pmiVector info s)⟩

theorem initPmu_inits : Inits s (initPmu info reg s).2 s.pmiVector (Registers s.pmiVector reg) := by
  obtain ⟨hvector,hnmi,hfast,hlvtpc⟩ := pmuGlobalInit_spec info s
  by_cases hreg : Registers s.pmiVector reg
  · obtain ⟨t,hregistered,ht,hpcpu,hinit⟩ := pmiInit_of_registers (hvector.symm ▸ hreg)
    have hentry : lvtEntry t.pmiVector = lvtEntry s.pmiVector :=
      congrArg lvtEntry (ht.trans hvector)
    rw [initPmu_of_pmi (by rw [hinit]),hinit]
    refine ⟨ht.trans hvector,fun _ => hentry,fun _ cpu => ?_,fun _ => hregistered,
      fun hnot => absurd hreg hnot,fun _ _ => rfl,fun hnot => absurd hreg hnot⟩
    change (t.pcpu cpu).lvtpc = lvtEntry s.pmiVector
    rw [hpcpu,hlvtpc]
  · obtain ⟨hinit,hne,-⟩ := pmiInit_of_not_registers (hvector.symm ▸ hreg)
    rw [initPmu_of_no_pmi hne]
    dsimp only
    rw [hinit]
    exact ⟨hvector,hlvtpc,fun h => absurd h hreg,fun h => absurd h hreg,fun _ => ⟨hnmi,hfast⟩,
      fun h => absurd h hreg,fun _ _ => rfl⟩

/-- `init_pmu` succeeds exactly if the handler was registered. -/
theorem initPmu_eq_zero_iff : (initPmu info reg s).1 = 0 ↔ Registers s.pmiVector reg := by
  have hvector := (pmuGlobalInit_spec info s).1
  by_cases hreg : Registers s.pmiVector reg
  · obtain ⟨t,-,-,-,hinit⟩ := pmiInit_of_registers (hvector.symm ▸ hreg)
    rw [initPmu_of_pmi (by rw [hinit])]
    exact iff_of_true rfl hreg
  · obtain ⟨-,hne,-⟩ := pmiInit_of_not_registers (hvector.symm ▸ hreg)
    rw [initPmu_of_no_pmi hne]
    dsimp only
    exact iff_of_false hne hreg

theorem initPmu_neg (hreg : ¬ Registers s.pmiVector reg) (hneg : s.pmiVector = .nmi → reg ≤ 0) :
    (initPmu info reg s).1 < 0 := by
  have hvector := (pmuGlobalInit_spec info s).1
  obtain ⟨-,hne,hlt⟩ := pmiInit_of_not_registers (hvector.symm ▸ hreg)
  rw [initPmu_of_no_pmi hne]
  dsimp only
  exact hlt fun hv => hneg (hvector.symm.trans hv)

end Init

section Handler
variable (s : State Cpu Task) (current : Task) (p : Pcpu Task)

/-- With no overflow status the handler returns before it rewrites LVTPC. -/
theorem pmiHandler_lvtpc : (pmiHandler s current p).2.lvtpc =
    if p.globalStatus = 0 then p.lvtpc else lvtEntry s.pmiVector := by
  unfold pmiHandler
  dsimp only
  split_ifs <;> cases s.pmiVector <;> rfl

@[simp] lemma pmiHandler_lvtBkp : (pmiHandler s current p).2.lvtBkp = p.lvtBkp := by
  unfold pmiHandler writeFixedPmc
  dsimp only
  split_ifs <;> cases s.pmiVector <;> rfl

end Handler

/-- LVTPC as the client sets it, masked or not. -/
def lvt (v : PmiVector) (masked : Bool) : BitVec 32 :=
  if masked then lvtEntry v ||| APIC_LVT_MASKED else lvtEntry v

lemma lvt_masked_iff (v : PmiVector) (masked : Bool) :
    lvt v masked &&& APIC_LVT_MASKED ≠ 0 ↔ masked = true := by
  cases v <;> cases masked <;> decide

section Deliver
variable [DecidableEq Cpu]

@[simp] lemma deliver_pmiVector (s : State Cpu Task) (e : Pmi Cpu Task) :
    (deliver s e).pmiVector = s.pmiVector := by
  unfold deliver
  dsimp only
  split_ifs <;> rfl

@[simp] lemma deliver_lvtBkp (s : State Cpu Task) (e : Pmi Cpu Task) (cpu : Cpu) :
    ((deliver s e).pcpu cpu).lvtBkp = (s.pcpu cpu).lvtBkp := by
  unfold deliver
  dsimp only
  split_ifs
  · rfl
  · rcases eq_or_ne cpu e.cpu with rfl | hne
    · simp
    · simp [hne]

/-- One PMI: it leaves LVTPC masked if it finds no status, and otherwise as it was. -/
lemma deliver_lvtpc {s : State Cpu Task} {cpu : Cpu} {masked : Bool}
    (h : (s.pcpu cpu).lvtpc = lvt s.pmiVector masked) (e : Pmi Cpu Task) :
    ((deliver s e).pcpu cpu).lvtpc =
      lvt s.pmiVector (masked || (e.cpu = cpu ∧ e.globalStatus = 0 : Bool)) := by
  unfold deliver
  dsimp only
  rcases eq_or_ne e.cpu cpu with rfl | hne
  · rw [h]
    cases masked with
    | true =>
      rw [if_pos ((lvt_masked_iff _ _).mpr rfl),Bool.true_or]
      exact h
    | false =>
      rw [if_neg (fun hm => Bool.false_ne_true ((lvt_masked_iff _ _).mp hm))]
      simp only [Function.update_self,pmiHandler_lvtpc]
      by_cases hg : e.globalStatus = 0 <;> simp [hg,lvt]
  · have hpcpu : ∀ p, Function.update s.pcpu e.cpu p cpu = s.pcpu cpu :=
      fun p => Function.update_of_ne hne.symm ..
    split_ifs <;> simp [hpcpu,h,hne]

/-- The PMIs of a session, on each CPU. -/
theorem foldl_deliver_lvt (pmis : List (Pmi Cpu Task)) {s : State Cpu Task} (cpu : Cpu)
    {masked : Bool} (h : (s.pcpu cpu).lvtpc = lvt s.pmiVector masked) :
    ((pmis.foldl deliver s).pcpu cpu).lvtpc =
        lvt s.pmiVector (masked || (∃ e ∈ pmis, e.cpu = cpu ∧ e.globalStatus = 0 : Bool)) ∧
      ((pmis.foldl deliver s).pcpu cpu).lvtBkp = (s.pcpu cpu).lvtBkp ∧
      (pmis.foldl deliver s).pmiVector = s.pmiVector := by
  induction pmis generalizing s masked with
  | nil => simpa using h
  | cons e pmis ih =>
    have hdel := deliver_lvtpc h e
    rw [← deliver_pmiVector s e] at hdel
    obtain ⟨hlvtpc,hbkp,hvector⟩ := ih hdel
    refine ⟨?_,hbkp.trans (deliver_lvtBkp s e cpu),hvector.trans (deliver_pmiVector s e)⟩
    rw [List.foldl_cons,hlvtpc,deliver_pmiVector,Bool.or_assoc]
    simp

end Deliver

lemma finiPmu_lvtpc (s : State Cpu Task) (cpu : Cpu) :
    ((finiPmu s).pcpu cpu).lvtpc = match s.pmiVector with
      | .nmi => (s.pcpu cpu).lvtBkp
      | .irq => (s.pcpu cpu).lvtpc := by
  cases hv : s.pmiVector <;>
    simp [finiPmu,pmiFini,pmiNmiCleanup,pmiIrqCleanup,pmcGlobalFini,disablePmcsGlobal,onEachCpu,
      disablePmcsLocal,pmiLvtCleanupLocal,hv]

section Session
variable [DecidableEq Cpu]

/-- On the CPU, LVTPC is already what the client sets it to: on the IRQ vector, masked if a PMI
of the session finds no status. -/
def AlreadySet (reg : ℤ) (pmis : List (Pmi Cpu Task)) (s : State Cpu Task) (cpu : Cpu) : Prop :=
  match s.pmiVector with
  | .nmi => (s.pcpu cpu).lvtpc = LVT_NMI
  | .irq =>
    if reg = RECODE_PMI.toNat ∧ ∃ e ∈ pmis, e.cpu = cpu ∧ e.globalStatus = 0 then
      (s.pcpu cpu).lvtpc = RECODE_PMI ||| APIC_LVT_MASKED
    else (s.pcpu cpu).lvtpc = RECODE_PMI

/-- What a session leaves in LVTPC, the same whatever it held before. -/
lemma lvtpc_session (info : Cpuid10) (reg : ℤ) (pmis : List (Pmi Cpu Task)) (s : State Cpu Task)
    (cpu : Cpu) : ((session info reg pmis s).pcpu cpu).lvtpc =
      match s.pmiVector with
      | .nmi => LVT_NMI
      | .irq =>
        if reg = RECODE_PMI.toNat ∧ ∃ e ∈ pmis, e.cpu = cpu ∧ e.globalStatus = 0 then
          RECODE_PMI ||| APIC_LVT_MASKED
        else RECODE_PMI := by
  have hinit := initPmu_inits info reg s
  unfold session
  simp only
  by_cases hreg : Registers s.pmiVector reg
  · have hentry : ((initPmu info reg s).2.pcpu cpu).lvtpc =
        lvt (initPmu info reg s).2.pmiVector false := by
      rw [hinit.lvtpc,hinit.vector]
      rfl
    obtain ⟨hlvtpc,hbkp,hvector⟩ := foldl_deliver_lvt pmis cpu hentry
    rw [if_neg (not_not.mpr ((initPmu_eq_zero_iff info reg s).mpr hreg)),finiPmu_lvtpc,hvector,
      hinit.vector,hlvtpc,hbkp,hinit.lvtBkp hreg,hinit.vector]
    cases hv : s.pmiVector with
    | nmi => rfl
    | irq =>
      rw [hv] at hreg
      have hfast : reg = RECODE_PMI.toNat := hreg
      by_cases hex : ∃ e ∈ pmis, e.cpu = cpu ∧ e.globalStatus = 0
      · rw [decide_eq_true hex]
        exact (if_pos ⟨hfast,hex⟩).symm
      · rw [decide_eq_false hex]
        exact (if_neg fun h => hex h.2).symm
  · rw [if_pos (mt (initPmu_eq_zero_iff info reg s).mp hreg),hinit.lvtpc]
    cases hv : s.pmiVector with
    | nmi => rfl
    | irq =>
      rw [hv] at hreg
      exact (if_neg fun h => hreg h.1).symm

/-- A CPU whose LVTPC holds a masked vector of its own; the NMI handler is registered, no PMI
comes, and the client is unloaded. -/
theorem lvtpc_lost :
    let p : Pcpu Unit := ⟨0x100fe,0,0,0,0,fun _ => 0,0,0,0,[]⟩
    let s : State Unit Unit := ⟨false,0,1,0,0,2^28-1,.nmi,false,false,fun _ => p⟩
    (initPmu ⟨7,4,3⟩ 0 s).1 = 0 ∧
      ((session ⟨7,4,3⟩ 0 [] s).pcpu ()).lvtpc ≠ (s.pcpu ()).lvtpc := by
  decide

/-- LVTPC is given back on every CPU, after a failed `init_pmu` as after a whole session, exactly
if it already held what the client sets it to: the backup is taken when the PMU initialisation
has overwritten the entry, and the IRQ vector does not restore it. -/
theorem lvtpc_given_back_iff (info : Cpuid10) (reg : ℤ) (pmis : List (Pmi Cpu Task))
    (s : State Cpu Task) :
    (∀ cpu, ((session info reg pmis s).pcpu cpu).lvtpc = (s.pcpu cpu).lvtpc) ↔
      ∀ cpu, AlreadySet reg pmis s cpu := by
  apply forall_congr'
  intro cpu
  rw [lvtpc_session]
  unfold AlreadySet
  cases s.pmiVector with
  | nmi => exact eq_comm
  | irq =>
    dsimp only
    split
    · exact eq_comm
    · exact eq_comm

end Session
end PmuMin.Pmu
