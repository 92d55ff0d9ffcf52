import PmuMin.Client.Pmi
import PmuMin.Library.Countdown

/-! The sampling period: the fixed counter that raises the PMI, armed by `__init_pmu_local` and
by `pmi_handler`, over the events it counts, the gating of the counters and the writes to the
parameter `reset_period` of `params.c`. -/
namespace PmuMin.Pmu
open Machine Gating

variable {Cpu Task : Type}

/-- The static variables as the module is loaded; the registers hold what they held. -/
def boot (v : PmiVector) (pcpu : Cpu → Pcpu Task) : State Cpu Task :=
  { machineInfoRead := false
    gblFixedCtrl := 0
    gblFixedPmcPmi := 1
    gblNrPmcFixed := 0
    gblNrPmcGeneral := 0
    resetPeriod := (1#64 <<< 28) - 1
    pmiVector := v
    nmiHandler := false
    fastIrq := false
    pcpu }

/-- `reset_period_set`; `kstrtoint` is the result of the call of that name and what it stores. -/
def resetPeriodSet (info : Cpuid10) (kstrtoint : ℤ × BitVec 32) (s : State Cpu Task) :
    ℤ × State Cpu Task :=
  let s := getMachineConfiguration info s
  let ret := kstrtoint.1
  let val := kstrtoint.2
  if ret < 0 then (ret,s)
  else if val.toInt < 12 ∨ 48 < val.toInt then (-EINVAL,s)
  else (ret,{ s with resetPeriod := (1#64 <<< val.toNat) - 1 })

/-- The counter runs on the CPU at this privilege: it is enabled as a whole and for the level. -/
def Counting (s : State Cpu Task) (cpu : Cpu) (user : Bool) : Prop :=
  let p := s.pcpu cpu
  p.globalCtrl.getLsbD (PERF_GLOBAL_CTRL_FIXED0_SHIFT + s.gblFixedPmcPmi) = true ∧
    p.fixedCtrCtrl.getLsbD (s.gblFixedPmcPmi*4 + if user then 1 else 0) = true

instance (s : State Cpu Task) (cpu : Cpu) (user : Bool) : Decidable (Counting s cpu user) :=
  inferInstanceAs (Decidable (_ ∧ _))

/-- What happens on the CPUs and to the parameters: an event of the counter that raises the PMI,
a write to the parameter, the two calls by which the client gates the counters. -/
inductive Input (Cpu Task : Type)
  | event (cpu : Cpu) (current : Task) (user : Bool)
  | setPeriod (info : Cpuid10) (kstrtoint : ℤ × BitVec 32)
  | enable (cpu : Cpu)
  | disable (cpu : Cpu)
  deriving DecidableEq

section Run
variable [DecidableEq Cpu]

/-- An event: the counter has 48 bits, and as it wraps it sets its bit of the status and raises
the PMI. The PMI is taken at once, and the freeze that comes with it ends as the handler
acknowledges the status. -/
def event (s : State Cpu Task) (cpu : Cpu) (current : Task) (user : Bool) : State Cpu Task :=
  if Counting s cpu user then
    let p := s.pcpu cpu
    let v := pmcTrim (p.fixedCtr s.gblFixedPmcPmi + 1)
    let t := { s with
      pcpu := Function.update s.pcpu cpu
        { p with fixedCtr := Function.update p.fixedCtr s.gblFixedPmcPmi v } }
    if v = 0 ∧ p.fixedCtrCtrl.getLsbD (s.gblFixedPmcPmi*4 + 3) = true then
      deliver t ⟨cpu,current,PERF_GLOBAL_CTRL_FIXED0_MASK <<< s.gblFixedPmcPmi⟩
    else t
  else s

def input (s : State Cpu Task) : Input Cpu Task → State Cpu Task
  | .event cpu current user => event s cpu current user
  | .setPeriod info kstrtoint => (resetPeriodSet info kstrtoint s).2
  | .enable cpu =>
    { s with pcpu := Function.update s.pcpu cpu (enablePmcsLocal s (s.pcpu cpu)) }
  | .disable cpu => { s with pcpu := Function.update s.pcpu cpu (disablePmcsLocal (s.pcpu cpu)) }

/-- The counter of the CPU counts the input. -/
def Counts (cpu : Cpu) (s : State Cpu Task) : Input Cpu Task → Prop
  | .event cpu' _ user => cpu' = cpu ∧ Counting s cpu user
  | _ => False

instance (cpu : Cpu) (s : State Cpu Task) : ∀ i, Decidable (Counts cpu s i)
  | .event .. => inferInstanceAs (Decidable (_ ∧ _))
  | .setPeriod .. | .enable _ | .disable _ => inferInstanceAs (Decidable False)

/-- The events on the CPU while its counters are enabled, read off the calls that gate them. -/
def enabledEvents (cpu : Cpu) : Bool → List (Input Cpu Task) → ℕ
  | _,[] => 0
  | en,.event cpu' _ _ :: is => (if cpu' = cpu ∧ en then 1 else 0) + enabledEvents cpu en is
  | en,.setPeriod .. :: is => enabledEvents cpu en is
  | en,.enable cpu' :: is => enabledEvents cpu (cpu' = cpu || en) is
  | en,.disable cpu' :: is => enabledEvents cpu (cpu' ≠ cpu && en) is

end Run

lemma toNat_pmcTrim (n : Word) : (pmcTrim n).toNat = n.toNat % 2^48 := by
  have hmask : ((1#64 <<< 48) - 1).toNat = 2^48 - 1 := by decide
  rw [pmcTrim,BitVec.toNat_and,hmask,Nat.and_two_pow_sub_one_eq_mod]

lemma toNat_period {k : ℕ} (hk : k ≤ 48) : ((1#64 <<< k) - 1).toNat = 2^k - 1 := by
  have hle : 2^k ≤ 2^48 := Nat.pow_le_pow_right (by omega) hk
  have hpos : 0 < 2^k := Nat.two_pow_pos k
  have hone : (1#64 <<< k).toNat = 2^k := by
    rw [BitVec.toNat_shiftLeft,Nat.shiftLeft_eq]
    change 1 * 2^k % 2^64 = 2^k
    omega
  rw [BitVec.toNat_sub,hone]
  change (2^64 - 1 + 2^k) % 2^64 = 2^k - 1
  omega

/-- What the counter is armed with: it wraps after `2^k` events. -/
lemma toNat_armed {k : ℕ} (hk : k ≤ 48) :
    (pmcTrim (pmcTrim (~~~((1#64 <<< k) - 1)))).toNat = 2^48 - 2^k := by
  have hle : 2^k ≤ 2^48 := Nat.pow_le_pow_right (by omega) hk
  have hpos : 0 < 2^k := Nat.two_pow_pos k
  rw [toNat_pmcTrim,toNat_pmcTrim,BitVec.toNat_not,toNat_period hk]
  omega

section Layout

/-- The body of the loop of `pmu_global_init`. -/
def ctrlStep (pmi : ℕ) (ctrl : Word) (pmc : ℕ) : Word :=
  let ctrl := if pmc = pmi then ctrl ||| ((1#64 <<< 3) <<< (pmc*4)) else ctrl
  let ctrl := ctrl ||| ((1#64 <<< 1) <<< (pmc*4))
  ctrl ||| ((1#64 <<< 0) <<< (pmc*4))

lemma getLsbD_ctrlStep (pmi : ℕ) (ctrl : Word) (pmc : ℕ) {i : ℕ} (hi : i < 64) :
    (ctrlStep pmi ctrl pmc).getLsbD i = (ctrl.getLsbD i || decide (i/4 = pmc ∧
      (i%4 < 2 ∨ i%4 = 3 ∧ pmc = pmi))) := by
  have hbit : ∀ j : ℕ, ((1#64 <<< j) <<< (pmc*4)).getLsbD i = decide (i = j + pmc*4) := by
    intro j
    rw [← BitVec.shiftLeft_add,BitField.getLsbD_bit]
    simp [hi]
  have hsplit : (i/4 = pmc ∧ (i%4 < 2 ∨ i%4 = 3 ∧ pmc = pmi)) ↔
      (pmc = pmi ∧ i = 3 + pmc*4) ∨ i = 1 + pmc*4 ∨ i = 0 + pmc*4 := by
    omega
  rw [Bool.eq_iff_iff,Bool.or_eq_true,decide_eq_true_iff,hsplit,ctrlStep]
  split_ifs with hpmc
  · simp only [BitVec.getLsbD_or,hbit,Bool.or_eq_true,decide_eq_true_iff,and_iff_right hpmc,
      or_assoc]
  · simp only [BitVec.getLsbD_or,hbit,Bool.or_eq_true,decide_eq_true_iff,hpmc,false_and,false_or,
      or_assoc]

lemma getLsbD_ctrl (pmi n : ℕ) (ctrl : Word) {i : ℕ} (hi : i < 64) :
    ((List.range n).foldl (ctrlStep pmi) ctrl).getLsbD i =
      (ctrl.getLsbD i || decide (i/4 < n ∧ (i%4 < 2 ∨ i%4 = 3 ∧ i/4 = pmi))) := by
  induction n with
  | zero => simp
  | succ n ih =>
    have hsplit : (i/4 < n + 1 ∧ (i%4 < 2 ∨ i%4 = 3 ∧ i/4 = pmi)) ↔
        (i/4 < n ∧ (i%4 < 2 ∨ i%4 = 3 ∧ i/4 = pmi)) ∨
          (i/4 = n ∧ (i%4 < 2 ∨ i%4 = 3 ∧ n = pmi)) := by
      omega
    rw [List.range_succ,List.foldl_append,List.foldl_cons,List.foldl_nil,getLsbD_ctrlStep _ _ _ hi,
      ih,decide_eq_decide.mpr hsplit,Bool.decide_or,Bool.or_assoc]

end Layout

/-- Writes to the parameter while the module is being loaded, then `init_pmu`. -/
def load (info : Cpuid10) (reg : ℤ) (writes : List (ℤ × BitVec 32)) (s : State Cpu Task) :
    ℤ × State Cpu Task :=
  initPmu info reg (writes.foldl (fun s w => (resetPeriodSet info w s).2) s)

/-- A CPU on which the counter is armed: LVTPC lets its PMI through, and the counter counts on
both levels and raises it. -/
structure CpuReady (v : PmiVector) (pmi : ℕ) (p : Pcpu Task) : Prop where
  lvtpc : p.lvtpc = lvtEntry v
  ctr : (p.fixedCtr pmi).toNat < 2^48
  user : p.fixedCtrCtrl.getLsbD (pmi*4 + 1) = true
  kernel : p.fixedCtrCtrl.getLsbD (pmi*4) = true
  overflow : p.fixedCtrCtrl.getLsbD (pmi*4 + 3) = true

lemma CpuReady.setGlobalCtrl {v : PmiVector} {pmi : ℕ} {p : Pcpu Task} (h : CpuReady v pmi p)
    (ctrl : Word) : CpuReady v pmi { p with globalCtrl := ctrl } :=
  ⟨h.lvtpc,h.ctr,h.user,h.kernel,h.overflow⟩

/-- What `init_pmu` leaves, if it succeeds, and nothing takes back until the module is unloaded. -/
structure Ready (s : State Cpu Task) : Prop where
  period : ∃ k, 12 ≤ k ∧ k ≤ 48 ∧ s.resetPeriod = (1#64 <<< k) - 1
  info : s.machineInfoRead = true
  fixed : s.gblFixedPmcPmi < s.gblNrPmcFixed.toNat
  cpus : ∀ cpu, CpuReady s.pmiVector s.gblFixedPmcPmi (s.pcpu cpu)

/-- The events that remain until the counter of the CPU wraps. -/
def left (cpu : Cpu) (s : State Cpu Task) : ℕ :=
  2^48 - ((s.pcpu cpu).fixedCtr s.gblFixedPmcPmi).toNat

/-- The samples that the CPU has asked for. -/
def samples (cpu : Cpu) (s : State Cpu Task) : ℕ := (s.pcpu cpu).snapshots.length

namespace Ready
variable {s : State Cpu Task}

lemma left_pos (h : Ready s) (cpu : Cpu) : 0 < left cpu s := Nat.sub_pos_of_lt (h.cpus cpu).ctr

lemma counting_iff (h : Ready s) (cpu : Cpu) (user : Bool) : Counting s cpu user ↔
    (s.pcpu cpu).globalCtrl.getLsbD (PERF_GLOBAL_CTRL_FIXED0_SHIFT + s.gblFixedPmcPmi) = true := by
  have hlevel : (s.pcpu cpu).fixedCtrCtrl.getLsbD
      (s.gblFixedPmcPmi*4 + if user then 1 else 0) = true := by
    cases user with
    | true => exact (h.cpus cpu).user
    | false => exact (h.cpus cpu).kernel
  exact and_iff_left hlevel

lemma status_ne_zero (h : Ready s) :
    PERF_GLOBAL_CTRL_FIXED0_MASK <<< s.gblFixedPmcPmi ≠ (0 : Word) := by
  have hlt : s.gblFixedPmcPmi < 32 := h.fixed.trans s.gblNrPmcFixed.isLt
  intro hzero
  have hbit := congrArg (BitVec.getLsbD · (PERF_GLOBAL_CTRL_FIXED0_SHIFT + s.gblFixedPmcPmi)) hzero
  rw [PERF_GLOBAL_CTRL_FIXED0_MASK,← BitVec.shiftLeft_add,BitField.getLsbD_bit] at hbit
  have hin : PERF_GLOBAL_CTRL_FIXED0_SHIFT + s.gblFixedPmcPmi < 64 := by
    rw [PERF_GLOBAL_CTRL_FIXED0_SHIFT]
    omega
  simp [hin] at hbit

end Ready

section Event
variable [DecidableEq Cpu] {s : State Cpu Task} {cpu : Cpu} {user : Bool}

omit [DecidableEq Cpu] in
/-- What the handler leaves of a CPU whose counter has wrapped. -/
lemma handled (current : Task) (h : Ready s) {p : Pcpu Task} (hp : CpuReady s.pmiVector s.gblFixedPmcPmi p) :
    let p' := (pmiHandler s current { p with
      lvtpc := p.lvtpc ||| APIC_LVT_MASKED
      globalStatus := PERF_GLOBAL_CTRL_FIXED0_MASK <<< s.gblFixedPmcPmi }).2
    CpuReady s.pmiVector s.gblFixedPmcPmi p' ∧ p'.globalCtrl = p.globalCtrl ∧
      (p'.fixedCtr s.gblFixedPmcPmi).toNat = 2^48 - (s.resetPeriod.toNat + 1) ∧
      p'.snapshots = current :: p.snapshots := by
  obtain ⟨k,-,hk,hperiod⟩ := h.period
  have hctr : pmcTrim (pmcTrim (~~~s.resetPeriod)) = pmcTrim (pmcTrim (~~~((1#64 <<< k) - 1))) :=
    congrArg (fun n => pmcTrim (pmcTrim (~~~n))) hperiod
  have hle : 2^k ≤ 2^48 := Nat.pow_le_pow_right (by omega) hk
  have hpos : 0 < 2^k := Nat.two_pow_pos k
  have harmed := toNat_armed hk
  dsimp only
  rw [pmiHandler_eq_accesses]
  dsimp only
  rw [pmiAccesses_of_ne_zero s current h.status_ne_zero,List.foldl_append]
  unfold rearmAccesses
  cases s.pmiVector <;>
    simp only [List.foldl_cons,List.foldl_nil,Access.apply,writeFixedPmc,Function.update_self]
  all_goals
    refine ⟨⟨rfl,?_,hp.user,hp.kernel,hp.overflow⟩,trivial,?_,trivial⟩
    · simp only [Function.update_self]
      rw [hctr,harmed]
      omega
    · rw [hctr,harmed,hperiod,toNat_period hk]
      omega

/-- An event that is counted: the counter goes on by one, or it wraps, its PMI is taken at once and
the counter is armed with the period in force. -/
lemma event_of_counting (current : Task) (h : Ready s) (hc : Counting s cpu user) : ∃ p' : Pcpu Task,
    event s cpu current user = { s with pcpu := Function.update s.pcpu cpu p' } ∧
      CpuReady s.pmiVector s.gblFixedPmcPmi p' ∧ p'.globalCtrl = (s.pcpu cpu).globalCtrl ∧
      if left cpu s = 1 then
        (p'.fixedCtr s.gblFixedPmcPmi).toNat = 2^48 - (s.resetPeriod.toNat + 1) ∧
          p'.snapshots = current :: (s.pcpu cpu).snapshots
      else
        (p'.fixedCtr s.gblFixedPmcPmi).toNat =
            ((s.pcpu cpu).fixedCtr s.gblFixedPmcPmi).toNat + 1 ∧
          p'.snapshots = (s.pcpu cpu).snapshots := by
  have hp := h.cpus cpu
  have hlt := hp.ctr
  have hnext : (pmcTrim ((s.pcpu cpu).fixedCtr s.gblFixedPmcPmi + 1)).toNat =
      (((s.pcpu cpu).fixedCtr s.gblFixedPmcPmi).toNat + 1) % 2^48 := by
    rw [toNat_pmcTrim,BitVec.toNat_add]
    change (_ + 1) % 2^64 % 2^48 = _
    omega
  unfold left
  rw [event,if_pos hc]
  dsimp only
  by_cases hone : 2^48 - ((s.pcpu cpu).fixedCtr s.gblFixedPmcPmi).toNat = 1
  · have hzero : pmcTrim ((s.pcpu cpu).fixedCtr s.gblFixedPmcPmi + 1) = 0 := by
      apply BitVec.eq_of_toNat_eq
      rw [hnext]
      change _ = 0
      omega
    rw [if_pos ⟨hzero,hp.overflow⟩,hzero]
    have hopen : ¬ (s.pcpu cpu).lvtpc &&& APIC_LVT_MASKED ≠ 0 := by
      rw [hp.lvtpc]
      exact fun hm => Bool.false_ne_true ((lvt_masked_iff _ false).mp hm)
    rw [deliver]
    simp only [Function.update_self,Function.update_idem]
    rw [if_neg hopen]
    obtain ⟨hready,hctrl,hctr,hsnap⟩ := handled current h
      (p := { s.pcpu cpu with
        fixedCtr := Function.update (s.pcpu cpu).fixedCtr s.gblFixedPmcPmi 0 })
      ⟨hp.lvtpc,by simp,hp.user,hp.kernel,hp.overflow⟩
    refine ⟨_,rfl,hready,hctrl,?_⟩
    rw [if_pos hone]
    exact ⟨hctr,hsnap⟩
  · have hsucc : (((s.pcpu cpu).fixedCtr s.gblFixedPmcPmi).toNat + 1) % 2^48 =
        ((s.pcpu cpu).fixedCtr s.gblFixedPmcPmi).toNat + 1 := by
      omega
    have hne : pmcTrim ((s.pcpu cpu).fixedCtr s.gblFixedPmcPmi + 1) ≠ 0 := by
      intro hzero
      rw [hzero,hsucc] at hnext
      exact absurd hnext (by change 0 ≠ _; omega)
    rw [if_neg (fun hw => hne hw.1)]
    refine ⟨_,rfl,⟨hp.lvtpc,?_,hp.user,hp.kernel,hp.overflow⟩,rfl,?_⟩
    · simp only [Function.update_self,hnext]
      exact Nat.mod_lt _ (by decide)
    · rw [if_neg hone]
      simp only [Function.update_self,hnext,hsucc]
      exact ⟨trivial,trivial⟩

end Event

section Input
variable [DecidableEq Cpu] {s : State Cpu Task}

lemma Ready.setPcpu (h : Ready s) (cpu : Cpu) {p : Pcpu Task}
    (hp : CpuReady s.pmiVector s.gblFixedPmcPmi p) :
    Ready { s with pcpu := Function.update s.pcpu cpu p } :=
  ⟨h.period,h.info,h.fixed,Update.all hp h.cpus⟩

omit [DecidableEq Cpu] in
/-- A write to the parameter sets a period in the documented range or leaves the one in force. -/
lemma resetPeriodSet_cases (info : Cpuid10) (w : ℤ × BitVec 32) (s : State Cpu Task) :
    (resetPeriodSet info w s).2 = getMachineConfiguration info s ∨
      ∃ k, 12 ≤ k ∧ k ≤ 48 ∧ (resetPeriodSet info w s).2 =
        { getMachineConfiguration info s with resetPeriod := (1#64 <<< k) - 1 } := by
  unfold resetPeriodSet
  dsimp only
  split_ifs with hret hrange
  · exact .inl rfl
  · exact .inl rfl
  · refine .inr ⟨w.2.toNat,?_,?_,rfl⟩ <;> rw [BitVec.toInt_eq_toNat_cond] at hrange <;>
      split_ifs at hrange <;> omega

omit [DecidableEq Cpu] in
lemma Ready.getMachineConfiguration_eq (h : Ready s) (info : Cpuid10) :
    getMachineConfiguration info s = s := by
  rw [getMachineConfiguration,if_pos h.info]

/-- Nothing that happens takes back what `init_pmu` has set up. -/
theorem Ready.input (h : Ready s) (i : Input Cpu Task) : Ready (input s i) := by
  cases i with
  | event cpu current user =>
    by_cases hc : Counting s cpu user
    · obtain ⟨p',hevent,hp',-⟩ := event_of_counting current h hc
      have hready := h.setPcpu cpu hp'
      rw [← hevent] at hready
      exact hready
    · have hevent : event s cpu current user = s := if_neg hc
      rw [← hevent] at h
      exact h
  | setPeriod info w =>
    have hinfo := h.getMachineConfiguration_eq info
    obtain hset | ⟨k,hlow,hhigh,hset⟩ := resetPeriodSet_cases info w s
    · rw [hinfo] at hset
      change Ready (resetPeriodSet info w s).2
      rw [hset]
      exact h
    · rw [hinfo] at hset
      change Ready (resetPeriodSet info w s).2
      rw [hset]
      exact ⟨⟨k,hlow,hhigh,rfl⟩,h.info,h.fixed,h.cpus⟩
  | enable cpu => exact h.setPcpu cpu ((h.cpus cpu).setGlobalCtrl _)
  | disable cpu => exact h.setPcpu cpu ((h.cpus cpu).setGlobalCtrl _)

/-- An input that the counter of the CPU does not count leaves the counter and the samples. -/
lemma Ready.idle (h : Ready s) (cpu : Cpu) {i : Input Cpu Task} (hi : ¬ Counts cpu s i) :
    left cpu (Pmu.input s i) = left cpu s ∧
      ((Pmu.input s i).pcpu cpu).snapshots = (s.pcpu cpu).snapshots := by
  cases i with
  | event cpu' current user =>
    by_cases hc : Counting s cpu' user
    · obtain ⟨p',hevent,-⟩ := event_of_counting current h hc
      have hne : cpu ≠ cpu' := by
        rintro rfl
        exact hi ⟨rfl,hc⟩
      have hpcpu : ((event s cpu' current user).pcpu cpu) = s.pcpu cpu := by
        rw [hevent]
        exact Function.update_of_ne hne ..
      have hpmi : (event s cpu' current user).gblFixedPmcPmi = s.gblFixedPmcPmi := by rw [hevent]
      exact ⟨by rw [left,Pmu.input,hpcpu,hpmi,left],congrArg Pcpu.snapshots hpcpu⟩
    · have hevent : event s cpu' current user = s := if_neg hc
      rw [Pmu.input,hevent]
      exact ⟨rfl,rfl⟩
  | setPeriod info w =>
    have hinfo := h.getMachineConfiguration_eq info
    rw [Pmu.input]
    obtain hset | ⟨k,-,-,hset⟩ := resetPeriodSet_cases info w s
    · rw [hset,hinfo]
      exact ⟨rfl,rfl⟩
    · rw [hset,hinfo]
      exact ⟨rfl,rfl⟩
  | enable cpu' =>
    rw [left,left,Pmu.input]
    rcases eq_or_ne cpu cpu' with rfl | hne
    · simp [enablePmcsLocal]
    · simp [hne]
  | disable cpu' =>
    rw [left,left,Pmu.input]
    rcases eq_or_ne cpu cpu' with rfl | hne
    · simp [disablePmcsLocal]
    · simp [hne]

/-- The counter of a CPU is a countdown that samples as it runs out and reloads with the period
then in force. -/
theorem countdown (cpu : Cpu) : Countdown (Pmu.input : State Cpu Task → _ → _) (Counts cpu) Ready
    (left cpu) (samples cpu) (fun s => s.resetPeriod.toNat + 1) where
  keeps _ i h := h.input i
  pos _ h := h.left_pos cpu
  idle s i h hi := by
    obtain ⟨hleft,hsnap⟩ := h.idle cpu hi
    exact ⟨hleft,congrArg List.length hsnap⟩
  count s i h hi hleft := by
    cases i with
    | event cpu' current user =>
      obtain ⟨rfl,hc⟩ := hi
      obtain ⟨p',hevent,-,-,hp'⟩ := event_of_counting current h hc
      rw [if_neg (by omega)] at hp'
      rw [left,samples,Pmu.input,hevent]
      simp only [Function.update_self]
      rw [hp'.1,hp'.2,left,samples]
      exact ⟨by omega,rfl⟩
    | setPeriod _ _ | enable _ | disable _ => exact hi.elim
  fire s i h hi hleft := by
    cases i with
    | event cpu' current user =>
      obtain ⟨rfl,hc⟩ := hi
      obtain ⟨p',hevent,-,-,hp'⟩ := event_of_counting current h hc
      rw [if_pos hleft] at hp'
      obtain ⟨k,-,hk,hperiod⟩ := h.period
      have hle : 2^k ≤ 2^48 := Nat.pow_le_pow_right (by omega) hk
      have hpos : 0 < 2^k := Nat.two_pow_pos k
      have hnat := toNat_period hk
      rw [left,samples,Pmu.input,hevent]
      simp only [Function.update_self]
      rw [hp'.1,hp'.2,hperiod,hnat,samples]
      exact ⟨by omega,rfl⟩
    | setPeriod _ _ | enable _ | disable _ => exact hi.elim

/-- The bit of the counter in what enables the counters. -/
lemma getLsbD_fixedPmcsToBitsMask {n : BitVec 5} {pmi : ℕ} (h : pmi < n.toNat) :
    (fixedPmcsToBitsMask n).getLsbD (PERF_GLOBAL_CTRL_FIXED0_SHIFT + pmi) = true := by
  have hn : n.toNat < 32 := n.isLt
  have hmask : ((1#64 <<< n.toNat) - 1 : Word).getLsbD pmi = decide (pmi < n.toNat) :=
    BitField.getLsbD_lowMask (by omega) pmi
  have hin : PERF_GLOBAL_CTRL_FIXED0_SHIFT + pmi < 64 := by
    rw [PERF_GLOBAL_CTRL_FIXED0_SHIFT]
    omega
  rw [fixedPmcsToBitsMask,BitVec.getLsbD_shiftLeft,Nat.add_sub_cancel_left,hmask]
  simp [hin,h]

/-- The counters of the CPU are enabled. -/
def Enabled (cpu : Cpu) (s : State Cpu Task) : Bool :=
  (s.pcpu cpu).globalCtrl.getLsbD (PERF_GLOBAL_CTRL_FIXED0_SHIFT + s.gblFixedPmcPmi)

/-- An event is counted exactly if its CPU is enabled, and changes no enabling. -/
lemma Ready.event_enabled (h : Ready s) (cpu cpu' : Cpu) (current : Task) (user : Bool) :
    Enabled cpu (event s cpu' current user) = Enabled cpu s := by
  by_cases hc : Counting s cpu' user
  · obtain ⟨p',hevent,-,hctrl,-⟩ := event_of_counting current h hc
    rw [hevent,Enabled,Enabled]
    rcases eq_or_ne cpu cpu' with rfl | hne
    · simp only [Function.update_self,hctrl]
    · simp only [Function.update_of_ne hne]
  · have hevent : event s cpu' current user = s := if_neg hc
    rw [hevent]

lemma Ready.ticks_eq (cpu : Cpu) (is : List (Input Cpu Task)) (h : Ready s) :
    ticks Pmu.input (Counts cpu) s is = enabledEvents cpu (Enabled cpu s) is := by
  induction is generalizing s with
  | nil => rfl
  | cons i is ih =>
    rw [ticks,ih (h.input i)]
    cases i with
    | event cpu' current user =>
      have hcounts : Counts cpu s (.event cpu' current user) ↔
          cpu' = cpu ∧ Enabled cpu s = true := and_congr_right fun _ => h.counting_iff cpu user
      rw [Pmu.input,h.event_enabled,enabledEvents]
      simp only [hcounts]
    | setPeriod info w =>
      have hinfo := h.getMachineConfiguration_eq info
      have henabled : Enabled cpu (resetPeriodSet info w s).2 = Enabled cpu s := by
        obtain hset | ⟨k,-,-,hset⟩ := resetPeriodSet_cases info w s
        · rw [hset,hinfo]
        · rw [hset,hinfo]
          rfl
      have hcounts : ¬ Counts cpu s (.setPeriod info w) := id
      rw [Pmu.input,henabled,enabledEvents,if_neg hcounts,Nat.zero_add]
    | enable cpu' =>
      have henabled : Enabled cpu (Pmu.input s (.enable cpu')) = (cpu' = cpu || Enabled cpu s) := by
        rw [Pmu.input,Enabled,Enabled]
        rcases eq_or_ne cpu' cpu with rfl | hne
        · simpa [enablePmcsLocal] using getLsbD_fixedPmcsToBitsMask h.fixed
        · simp [hne,hne.symm]
      have hcounts : ¬ Counts cpu s (.enable cpu') := id
      rw [henabled,enabledEvents,if_neg hcounts,Nat.zero_add]
    | disable cpu' =>
      have henabled : Enabled cpu (Pmu.input s (.disable cpu')) = (cpu' ≠ cpu && Enabled cpu s) := by
        rw [Pmu.input,Enabled,Enabled]
        rcases eq_or_ne cpu' cpu with rfl | hne
        · simp [disablePmcsLocal]
        · simp [hne,hne.symm]
      have hcounts : ¬ Counts cpu s (.disable cpu') := id
      rw [henabled,enabledEvents,if_neg hcounts,Nat.zero_add]

end Input

section Load
variable {info : Cpuid10} {reg : ℤ} {v : PmiVector} {pcpu : Cpu → Pcpu Task}

/-- The module before `init_pmu`: the parameter may have been written, the CPUs are as they were. -/
structure Booted (info : Cpuid10) (v : PmiVector) (pcpu : Cpu → Pcpu Task) (s : State Cpu Task) :
    Prop where
  period : ∃ k, 12 ≤ k ∧ k ≤ 48 ∧ s.resetPeriod = (1#64 <<< k) - 1
  ctrl : s.gblFixedCtrl = 0
  pmi : s.gblFixedPmcPmi = 1
  vector : s.pmiVector = v
  fixed : s.machineInfoRead = true → s.gblNrPmcFixed = info.numCountersFixed
  cpus : s.pcpu = pcpu

lemma booted_boot (info : Cpuid10) (v : PmiVector) (pcpu : Cpu → Pcpu Task) :
    Booted info v pcpu (boot v pcpu) :=
  ⟨⟨28,by decide,by decide,rfl⟩,rfl,rfl,rfl,fun h => absurd h Bool.false_ne_true,rfl⟩

lemma Booted.configured {s : State Cpu Task} (h : Booted info v pcpu s) :
    Booted info v pcpu (getMachineConfiguration info s) := by
  unfold getMachineConfiguration
  split_ifs
  · exact h
  · exact h
  · exact ⟨h.period,h.ctrl,h.pmi,h.vector,fun _ => rfl,h.cpus⟩

lemma Booted.write {s : State Cpu Task} (h : Booted info v pcpu s) (w : ℤ × BitVec 32) :
    Booted info v pcpu (resetPeriodSet info w s).2 := by
  have hget := h.configured
  obtain hset | ⟨k,hlow,hhigh,hset⟩ := resetPeriodSet_cases info w s
  · rw [hset]
    exact hget
  · rw [hset]
    exact ⟨⟨k,hlow,hhigh,rfl⟩,hget.ctrl,hget.pmi,hget.vector,hget.fixed,hget.cpus⟩

lemma Booted.writes {s : State Cpu Task} (h : Booted info v pcpu s)
    (writes : List (ℤ × BitVec 32)) :
    Booted info v pcpu (writes.foldl (fun s w => (resetPeriodSet info w s).2) s) := by
  induction writes generalizing s with
  | nil => exact h
  | cons w writes ih => exact ih (h.write w)

/-- What `__init_pmu_local` loads the counter of the PMI with. -/
lemma initPmuLocal_fixedCtr {s : State Cpu Task} (h : s.gblFixedPmcPmi < s.gblNrPmcFixed.toNat)
    (p : Pcpu Task) : (initPmuLocal s p).fixedCtr s.gblFixedPmcPmi =
      pmcTrim (pmcTrim (~~~s.resetPeriod)) := by
  let value := fun pmc : ℕ =>
    if pmc = s.gblFixedPmcPmi then pmcTrim (pmcTrim (~~~s.resetPeriod)) else pmcTrim 0
  have hstores : (initPmuLocal s p).fixedCtr =
      Update.stores p.fixedCtr ((List.range s.gblNrPmcFixed.toNat).map fun n => (n,value n)) := by
    rw [Update.stores,List.foldl_map]
    rfl
  have hvalue : value s.gblFixedPmcPmi = pmcTrim (pmcTrim (~~~s.resetPeriod)) := if_pos rfl
  rw [hstores]
  apply Update.stores_of_agree
  · intro st hst hpmi
    obtain ⟨n,-,rfl⟩ := List.mem_map.mp hst
    rw [← hvalue,← hpmi]
  · exact ⟨_,List.mem_map.mpr ⟨_,List.mem_range.mpr h,rfl⟩,rfl⟩

lemma pmiInit_frame (reg : ℤ) (s : State Cpu Task) :
    let t := (pmiInit reg s).2
    t.resetPeriod = s.resetPeriod ∧ t.machineInfoRead = s.machineInfoRead ∧
      t.gblFixedPmcPmi = s.gblFixedPmcPmi ∧ t.gblNrPmcFixed = s.gblNrPmcFixed ∧
      ∀ cpu, (t.pcpu cpu).fixedCtr = (s.pcpu cpu).fixedCtr ∧
        (t.pcpu cpu).fixedCtrCtrl = (s.pcpu cpu).fixedCtrCtrl ∧
        (t.pcpu cpu).snapshots = (s.pcpu cpu).snapshots := by
  unfold pmiInit pmiNmiSetup pmiIrqSetup
  cases s.pmiVector <;> dsimp only <;> split_ifs <;>
    simp [enablePmcsGlobal,enablePmcsLocal,onEachCpu,pmiLvtSetupLocal]

lemma machineInfoRead_getMachineConfiguration (hlen : ¬ info.maskLength < 7)
    (s : State Cpu Task) : (getMachineConfiguration info s).machineInfoRead = true := by
  unfold getMachineConfiguration
  split_ifs with hread
  · exact hread
  · rfl

/-- `pmu_global_init` arms the counter on every CPU. -/
lemma Booted.armed {s : State Cpu Task} (h : Booted info v pcpu s)
    (hfixed : s.gblFixedPmcPmi < s.gblNrPmcFixed.toNat) (cpu : Cpu) :
    let t := (pmuGlobalInit s).2
    CpuReady v s.gblFixedPmcPmi (t.pcpu cpu) ∧
      (t.pcpu cpu).fixedCtr s.gblFixedPmcPmi = pmcTrim (pmcTrim (~~~s.resetPeriod)) ∧
      (t.pcpu cpu).snapshots = (pcpu cpu).snapshots := by
  obtain ⟨k,-,hk,hperiod⟩ := h.period
  have hlt : s.gblNrPmcFixed.toNat < 32 := s.gblNrPmcFixed.isLt
  have hctr : ((pmuGlobalInit s).2.pcpu cpu).fixedCtr s.gblFixedPmcPmi =
      pmcTrim (pmcTrim (~~~s.resetPeriod)) :=
    initPmuLocal_fixedCtr (s := { s with
      gblFixedCtrl := (List.range s.gblNrPmcFixed.toNat).foldl (ctrlStep s.gblFixedPmcPmi)
        s.gblFixedCtrl }) hfixed (s.pcpu cpu)
  have hctrl : ((pmuGlobalInit s).2.pcpu cpu).fixedCtrCtrl =
      (List.range s.gblNrPmcFixed.toNat).foldl (ctrlStep s.gblFixedPmcPmi) s.gblFixedCtrl := rfl
  have hbit : ∀ j, j < 2 ∨ j = 3 →
      ((pmuGlobalInit s).2.pcpu cpu).fixedCtrCtrl.getLsbD (s.gblFixedPmcPmi*4 + j) = true := by
    intro j hj
    have hpmi := h.pmi
    rw [hctrl,getLsbD_ctrl _ _ _ (by omega),Bool.or_eq_true,decide_eq_true_iff]
    exact .inr (by omega)
  refine ⟨⟨?_,?_,hbit 1 (by decide),hbit 0 (by decide),hbit 3 (by decide)⟩,hctr,?_⟩
  · exact congrArg lvtEntry h.vector
  · have harmed := toNat_armed hk
    have hpos : 0 < 2^k := Nat.two_pow_pos k
    rw [hctr,congrArg (fun n => pmcTrim (pmcTrim (~~~n))) hperiod,harmed]
    omega
  · exact congrArg (fun p => (p cpu).snapshots) h.cpus

lemma initPmu_of_registers {s : State Cpu Task} (hreg : Registers s.pmiVector reg) :
    (initPmu info reg s).2 = (pmiInit reg (pmuGlobalInit (getMachineConfiguration info s)).2).2 := by
  have hreg' : Registers (pmuGlobalInit (getMachineConfiguration info s)).2.pmiVector reg :=
    (pmuGlobalInit_spec info s).1.symm ▸ hreg
  obtain ⟨t,-,-,-,hinit⟩ := pmiInit_of_registers hreg'
  rw [initPmu_of_pmi (by rw [hinit])]

/-- A successful `init_pmu` leaves every CPU armed with the period in force, and enabled. -/
theorem Booted.ready {s : State Cpu Task} (h : Booted info v pcpu s)
    (hlen : ¬ info.maskLength < 7) (hfixed : 2 ≤ info.numCountersFixed.toNat)
    (hreg : Registers v reg) :
    let t := (initPmu info reg s).2
    Ready t ∧ ∀ cpu, left cpu t = t.resetPeriod.toNat + 1 ∧
      (t.pcpu cpu).snapshots = (pcpu cpu).snapshots ∧ Enabled cpu t = true := by
  have hget := h.configured
  have hread := machineInfoRead_getMachineConfiguration hlen s
  have hpmi : (getMachineConfiguration info s).gblFixedPmcPmi <
      (getMachineConfiguration info s).gblNrPmcFixed.toNat := by
    rw [hget.pmi,hget.fixed hread]
    omega
  have hinits := initPmu_inits info reg s
  rw [h.vector] at hinits
  have hvector := hinits.vector.trans h.vector
  have hlvtpc := hinits.lvtpc
  have henabled := hinits.enabled hreg
  obtain ⟨hperiod,hinfo,hcounter,hnr,hcpu⟩ :=
    pmiInit_frame reg (pmuGlobalInit (getMachineConfiguration info s)).2
  rw [← initPmu_of_registers (h.vector.symm ▸ hreg)] at hperiod hinfo hcounter hnr hcpu
  change _ = (getMachineConfiguration info s).resetPeriod at hperiod
  change _ = (getMachineConfiguration info s).machineInfoRead at hinfo
  change _ = (getMachineConfiguration info s).gblFixedPmcPmi at hcounter
  change _ = (getMachineConfiguration info s).gblNrPmcFixed at hnr
  generalize initPmu info reg s = r at *
  obtain ⟨k,hlow,hhigh,hk⟩ := hget.period
  have hready : Ready r.2 := by
    refine ⟨⟨k,hlow,hhigh,hperiod.trans hk⟩,hinfo.trans hread,by rw [hcounter,hnr]; exact hpmi,?_⟩
    intro cpu
    obtain ⟨harmed,-,-⟩ := hget.armed hpmi cpu
    obtain ⟨hctr,hctrl,-⟩ := hcpu cpu
    rw [hvector,hcounter]
    exact ⟨hlvtpc cpu,by rw [hctr]; exact harmed.ctr,by rw [hctrl]; exact harmed.user,
      by rw [hctrl]; exact harmed.kernel,by rw [hctrl]; exact harmed.overflow⟩
  refine ⟨hready,fun cpu => ?_⟩
  obtain ⟨-,hvalue,hsnap⟩ := hget.armed hpmi cpu
  obtain ⟨hctr,-,hsnap'⟩ := hcpu cpu
  refine ⟨?_,hsnap'.trans hsnap,?_⟩
  · have harmed := toNat_armed hhigh
    have hle : 2^k ≤ 2^48 := Nat.pow_le_pow_right (by omega) hhigh
    have hpos : 0 < 2^k := Nat.two_pow_pos k
    rw [left,hcounter,hctr,hvalue,congrArg (fun n => pmcTrim (pmcTrim (~~~n))) hk,harmed,
      hperiod,hk,toNat_period hhigh]
    omega
  · rw [Enabled,henabled]
    exact getLsbD_fixedPmcsToBitsMask hready.fixed

/-- A load that succeeds. -/
theorem load_ready (hlen : ¬ info.maskLength < 7) (hfixed : 2 ≤ info.numCountersFixed.toNat)
    (hreg : Registers v reg) (writes : List (ℤ × BitVec 32)) (pcpu : Cpu → Pcpu Task) :
    let s := (load info reg writes (boot v pcpu)).2
    Ready s ∧ ∀ cpu, left cpu s = s.resetPeriod.toNat + 1 ∧
      (s.pcpu cpu).snapshots = (pcpu cpu).snapshots ∧ Enabled cpu s = true :=
  ((booted_boot info v pcpu).writes writes).ready hlen hfixed hreg

lemma load_globalCtrl (hreg : Registers v reg) (writes : List (ℤ × BitVec 32))
    (pcpu : Cpu → Pcpu Task) (cpu : Cpu) :
    let s := (load info reg writes (boot v pcpu)).2
    (s.pcpu cpu).globalCtrl = fixedPmcsToBitsMask s.gblNrPmcFixed := by
  have hvector := ((booted_boot info v pcpu).writes writes).vector
  exact (initPmu_inits info reg _).enabled (hvector.symm ▸ hreg) cpu

end Load

section Samples
variable [DecidableEq Cpu] {info : Cpuid10} {reg : ℤ} {v : PmiVector}

/-- However the counters are gated and the parameter is written: an event asks for no sample, or
for one of the task that it interrupts; the next sample of that CPU then comes with the event
that completes the period in force, `2^k` events counted while its counters are enabled. -/
theorem sample_spacing (hlen : ¬ info.maskLength < 7) (hfixed : 2 ≤ info.numCountersFixed.toNat)
    (hreg : Registers v reg) (writes : List (ℤ × BitVec 32)) (pcpu : Cpu → Pcpu Task)
    (is : List (Input Cpu Task)) (cpu : Cpu) (current : Task) (user : Bool) :
    let s := is.foldl input (load info reg writes (boot v pcpu)).2
    let t := event s cpu current user
    (∀ cpu', cpu' ≠ cpu → (t.pcpu cpu').snapshots = (s.pcpu cpu').snapshots) ∧
      ((t.pcpu cpu).snapshots = (s.pcpu cpu).snapshots ∨
        (t.pcpu cpu).snapshots = current :: (s.pcpu cpu).snapshots ∧
          ∃ k, 12 ≤ k ∧ k ≤ 48 ∧ s.resetPeriod.toNat = 2^k - 1 ∧
            ∀ js, samples cpu (js.foldl input t) = samples cpu t ↔
              enabledEvents cpu true js < 2^k) := by
  have hs : Ready (is.foldl input (load info reg writes (boot v pcpu)).2) :=
    (countdown cpu).foldl (load_ready hlen hfixed hreg writes pcpu).1 is
  intro s t
  change Ready s at hs
  have ht : Ready t := hs.input (.event cpu current user)
  by_cases hc : Counting s cpu user
  · obtain ⟨p',hevent,-,hctrl,hp'⟩ := event_of_counting current hs hc
    refine ⟨fun cpu' hne => ?_,?_⟩
    · rw [show t = _ from hevent]
      exact congrArg Pcpu.snapshots (Function.update_of_ne hne ..)
    · have hsnap : (t.pcpu cpu).snapshots = p'.snapshots := by
        rw [show t = _ from hevent]
        exact congrArg Pcpu.snapshots (Function.update_self ..)
      by_cases hone : left cpu s = 1
      · rw [if_pos hone] at hp'
        obtain ⟨k,hlow,hhigh,hk⟩ := hs.period
        have hpos : 0 < 2^k := Nat.two_pow_pos k
        have hperiod : s.resetPeriod.toNat = 2^k - 1 := by rw [hk,toNat_period hhigh]
        have hleft : left cpu t = 2^k := by
          have hfire := ((countdown cpu).fire s (.event cpu current user) hs ⟨rfl,hc⟩ hone).1
          rw [hperiod] at hfire
          exact hfire.trans (by omega)
        have henabled : Enabled cpu t = true :=
          (hs.event_enabled cpu cpu current user).trans ((hs.counting_iff cpu user).mp hc)
        refine .inr ⟨hsnap.trans hp'.2,k,hlow,hhigh,hperiod,fun js => ?_⟩
        rw [(countdown cpu).fired_eq_iff ht,ht.ticks_eq,henabled,hleft]
      · rw [if_neg hone] at hp'
        exact .inl (hsnap.trans hp'.2)
  · have hevent : t = s := if_neg hc
    rw [hevent]
    exact ⟨fun _ _ => rfl,.inl rfl⟩

lemma Ready.samples_replicate {s : State Cpu Task} (h : Ready s) {cpu : Cpu}
    (henabled : Enabled cpu s = true) (current : Task) (user : Bool) (n : ℕ) :
    samples cpu ((List.replicate n (.event cpu current user)).foldl Pmu.input s) = samples cpu s ↔
      n < left cpu s := by
  have hcount : enabledEvents cpu true (List.replicate n (.event cpu current user)) = n := by
    induction n with
    | zero => rfl
    | succ n ih =>
      rw [List.replicate_succ,enabledEvents,ih,if_pos ⟨rfl,rfl⟩]
      exact Nat.add_comm 1 n
  rw [(countdown cpu).fired_eq_iff h,h.ticks_eq,henabled,hcount]

/-- The event that the count asks for, after those before it. -/
lemma Ready.snapshots_ne {s : State Cpu Task} (h : Ready s) {cpu : Cpu}
    (henabled : Enabled cpu s = true) (current : Task) (user : Bool) {n : ℕ}
    (hleft : left cpu s = n + 1) :
    let s' := (List.replicate n (.event cpu current user)).foldl Pmu.input s
    ((event s' cpu current user).pcpu cpu).snapshots ≠ (s'.pcpu cpu).snapshots := by
  intro s' hnone
  have hbefore := (h.samples_replicate henabled current user n).mpr (by omega)
  have hafter := h.samples_replicate henabled current user (n+1)
  rw [List.replicate_succ',List.foldl_append] at hafter
  have hlast := hafter.mp ((congrArg List.length hnone).trans hbefore)
  omega

/-- On one CPU, with the IRQ vector and `reset_period` set to 12, the event after the first 4095. -/
theorem sample_spacing_irq :
    let p : Pcpu Unit := ⟨0,0,0,0,0,fun _ => 0,0,0,0,[]⟩
    let is := List.replicate 4095 (.event () () true)
    let s := is.foldl input (load ⟨7,4,3⟩ RECODE_PMI.toNat [(0,12#32)] (boot .irq fun _ => p)).2
    let t := event s () () true
    (∀ cpu', cpu' ≠ () → (t.pcpu cpu').snapshots = (s.pcpu cpu').snapshots) ∧
      (t.pcpu ()).snapshots = () :: (s.pcpu ()).snapshots ∧
        ∃ k, 12 ≤ k ∧ k ≤ 48 ∧ s.resetPeriod.toNat = 2^k - 1 ∧
          ∀ js, samples () (js.foldl input t) = samples () t ↔ enabledEvents () true js < 2^k := by
  have hlen : ¬ (⟨7,4,3⟩ : Cpuid10).maskLength < 7 := by decide
  have hfixed : 2 ≤ (⟨7,4,3⟩ : Cpuid10).numCountersFixed.toNat := by decide
  have hreg : Registers .irq RECODE_PMI.toNat := rfl
  obtain ⟨hready,hcpus⟩ := load_ready hlen hfixed hreg [(0,12#32)]
    fun _ : Unit => (⟨0,0,0,0,0,fun _ => 0,0,0,0,[]⟩ : Pcpu Unit)
  obtain ⟨hleft,-,henabled⟩ := hcpus ()
  obtain ⟨hothers,hsample⟩ := sample_spacing hlen hfixed hreg [(0,12#32)] _
    (List.replicate 4095 (.event () () true)) () () true
  exact ⟨hothers,hsample.resolve_left (hready.snapshots_ne henabled () true hleft)⟩

lemma foldl_resetPeriod {is : List (Input Cpu Task)}
    (hperiod : ∀ i ∈ is, ∀ info w, i ≠ .setPeriod info w) {s : State Cpu Task} (h : Ready s) :
    (is.foldl input s).resetPeriod = s.resetPeriod := by
  induction is generalizing s with
  | nil => rfl
  | cons i is ih =>
    obtain ⟨hi,his⟩ := List.forall_mem_cons.mp hperiod
    refine (ih his (h.input i)).trans ?_
    cases i with
    | event cpu current user =>
      by_cases hc : Counting s cpu user
      · obtain ⟨p',hevent,-⟩ := event_of_counting current h hc
        rw [input,hevent]
      · have hevent : event s cpu current user = s := if_neg hc
        rw [input,hevent]
    | setPeriod info w => exact absurd rfl (hi info w)
    | enable cpu => rfl
    | disable cpu => rfl

/-- From a counter that is armed in full, with the period left alone. -/
lemma Ready.samples_eq {s : State Cpu Task} (h : Ready s) {cpu : Cpu}
    (hleft : left cpu s = s.resetPeriod.toNat + 1) {is : List (Input Cpu Task)}
    (hperiod : ∀ i ∈ is, ∀ info w, i ≠ .setPeriod info w) :
    ∃ k, 12 ≤ k ∧ k ≤ 48 ∧ s.resetPeriod.toNat = 2^k - 1 ∧
      samples cpu (is.foldl Pmu.input s) =
        samples cpu s + ticks Pmu.input (Counts cpu) s is / 2^k := by
  obtain ⟨k,hlow,hhigh,hk⟩ := h.period
  have hpos : 0 < 2^k := Nat.two_pow_pos k
  have hnat : s.resetPeriod.toNat = 2^k - 1 := by rw [hk,toNat_period hhigh]
  have hreload : ∀ n, ((is.take n).foldl Pmu.input s).resetPeriod.toNat + 1 = 2^k := by
    intro n
    have htake : ∀ i ∈ is.take n, ∀ info w, i ≠ .setPeriod info w :=
      fun i hi => hperiod i (List.mem_of_mem_take hi)
    rw [foldl_resetPeriod htake h,hnat]
    omega
  have hfull : left cpu s = 2^k := by omega
  exact ⟨k,hlow,hhigh,hnat,(countdown cpu).fired_eq h hreload hfull⟩

/-- With the parameter left alone once the module is loaded, a CPU samples once for every `2^k`
events that happen while its counters are enabled: no event is lost when the counters are gated
between two samples, or to the privilege level. -/
theorem samples_eq_div (hlen : ¬ info.maskLength < 7) (hfixed : 2 ≤ info.numCountersFixed.toNat)
    (hreg : Registers v reg) (writes : List (ℤ × BitVec 32)) (pcpu : Cpu → Pcpu Task)
    (is : List (Input Cpu Task)) (hperiod : ∀ i ∈ is, ∀ info w, i ≠ .setPeriod info w) (cpu : Cpu) :
    let s := (load info reg writes (boot v pcpu)).2
    ∃ k, 12 ≤ k ∧ k ≤ 48 ∧ s.resetPeriod.toNat = 2^k - 1 ∧
      samples cpu (is.foldl input s) =
        (pcpu cpu).snapshots.length + enabledEvents cpu true is / 2^k := by
  obtain ⟨hs,hcpus⟩ := load_ready hlen hfixed hreg writes pcpu
  obtain ⟨hleft,hsnap,henabled⟩ := hcpus cpu
  obtain ⟨k,hlow,hhigh,hnat,hsamples⟩ := hs.samples_eq hleft hperiod
  refine ⟨k,hlow,hhigh,hnat,?_⟩
  rw [hsamples,hs.ticks_eq,henabled,samples,hsnap]

/-- The counters of a CPU are gated once, with the NMI vector and the period of the source. -/
theorem samples_eq_div_gated :
    let p : Pcpu Unit := ⟨0,0,0,0,0,fun _ => 0,0,0,0,[]⟩
    let s := (load ⟨7,4,3⟩ 0 [] (boot .nmi fun _ : Unit => p)).2
    let is := [.event () () true,.disable (),.event () () false,.enable (),.event () () false]
    ∃ k, 12 ≤ k ∧ k ≤ 48 ∧ s.resetPeriod.toNat = 2^k - 1 ∧
      samples () (is.foldl input s) = 0 + enabledEvents () true is / 2^k :=
  samples_eq_div (by decide) (by decide) (show Registers .nmi 0 from rfl) []
    (fun _ => ⟨0,0,0,0,0,fun _ => 0,0,0,0,[]⟩) _ (by simp) ()

end Samples
end PmuMin.Pmu
