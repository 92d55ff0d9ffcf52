import PmuMin.Client.Snapshot

/-! The accesses that `pmi_handler` makes, in their order: what they leave of the local APIC, and
which interrupts become samples. -/
namespace PmuMin.Pmu
open Machine

/-- An access of `pmi_handler` to its CPU, or its call of `snapshot_pmc`. -/
inductive Access (Task : Type)
  | counter
  | snapshot (task : Task)
  | fixedCtr (n : ℕ) (v : Word)
  | lvtpc (v : BitVec 32)
  | eoi
  | ovfCtrl (v : Word)

namespace Access
variable {Task : Type}

def apply (p : Pcpu Task) : Access Task → Pcpu Task
  | counter => { p with pmiCounter := p.pmiCounter + 1 }
  | snapshot task => { p with snapshots := task :: p.snapshots }
  | fixedCtr n v => writeFixedPmc n v p
  | lvtpc v => { p with lvtpc := v }
  | eoi => { p with eois := p.eois + 1 }
  | ovfCtrl v => { p with globalStatus := p.globalStatus &&& ~~~v }

end Access

section Handler
variable {Cpu Task : Type} (s : State Cpu Task) (current : Task) (global : Word)

/-- The first two exits of `pmi_handler`: the status is none of its business. -/
def NoPmi : Prop :=
  global &&& (PERF_GLOBAL_CTRL_FIXED0_MASK <<< s.gblFixedPmcPmi) = 0 ∧
    ¬ (global ≠ 0 ∧ PERF_COND_CHGD_IGNORE_MASK ≠ 0)

instance : Decidable (NoPmi s global) := inferInstanceAs (Decidable (_ ∧ _))

/-- The accesses between the tests and the label `no_pmi`, with `handled`. -/
def sampleAccesses : ℕ × List (Access Task) :=
  if NoPmi s global then (0,[])
  else (1,[.counter,.snapshot current,.fixedCtr s.gblFixedPmcPmi (pmcTrim (~~~s.resetPeriod))])

/-- The accesses from the label `no_pmi` on. -/
def rearmAccesses : List (Access Task) :=
  match s.pmiVector with
  | .nmi => [.lvtpc LVT_NMI,.ovfCtrl global]
  | .irq => [.lvtpc RECODE_PMI,.eoi,.ovfCtrl global]

/-- `pmi_handler`: its result and its accesses, from the global status it reads. -/
def pmiAccesses : ℕ × List (Access Task) :=
  if global = 0 then (0,[])
  else
    let r := sampleAccesses s current global
    (r.1,r.2 ++ rearmAccesses s global)

/-- The accesses are all that the handler does. -/
theorem pmiHandler_eq_accesses (p : Pcpu Task) : pmiHandler s current p =
    let r := pmiAccesses s current p.globalStatus
    (r.1,r.2.foldl Access.apply p) := by
  unfold pmiHandler pmiAccesses sampleAccesses rearmAccesses
  dsimp only
  split
  · rfl
  · by_cases hno : NoPmi s p.globalStatus
    · rw [if_pos hno,if_pos (show _ ∧ _ from hno)]
      cases s.pmiVector <;> rfl
    · rw [if_neg hno,if_neg (show ¬ (_ ∧ _) from hno)]
      cases s.pmiVector <;> rfl

end Handler

/-- The CPUs with their local APICs: whether the vector of the interrupt is in service. -/
structure Apic (Cpu Task : Type) where
  pmu : State Cpu Task
  inService : Cpu → Bool

namespace Apic
variable {Cpu Task : Type}

/-- The interrupt reaches its CPU. -/
def Open (a : Apic Cpu Task) (cpu : Cpu) : Prop :=
  (a.pmu.pcpu cpu).lvtpc &&& APIC_LVT_MASKED = 0 ∧ a.inService cpu = false

instance (a : Apic Cpu Task) (cpu : Cpu) : Decidable (a.Open cpu) :=
  inferInstanceAs (Decidable (_ ∧ _))

/-- An EOI ends the service. -/
def service (inService : Bool) : Access Task → Bool
  | .eoi => false
  | _ => inService

/-- LVTPC holds the bare vector everywhere, and nothing is in service. -/
structure Armed (a : Apic Cpu Task) : Prop where
  vector : a.pmu.pmiVector = .irq
  lvtpc : ∀ cpu, (a.pmu.pcpu cpu).lvtpc = RECODE_PMI
  service : ∀ cpu, a.inService cpu = false

lemma Armed.open {a : Apic Cpu Task} (h : Armed a) (cpu : Cpu) : a.Open cpu := by
  refine ⟨?_,h.service cpu⟩
  rw [h.lvtpc]
  decide

section Sample
variable (s : State Cpu Task) (current : Task) (global : Word)

lemma foldl_sampleAccesses (p : Pcpu Task) (inService : Bool) :
    let accesses := (sampleAccesses s current global).2
    (accesses.foldl Access.apply p).lvtpc = p.lvtpc ∧
      (accesses.foldl Access.apply p).eois = p.eois ∧
      accesses.foldl service inService = inService := by
  unfold sampleAccesses
  split <;> exact ⟨rfl,rfl,rfl⟩

variable {s global} in
lemma foldl_pmiAccesses (hv : s.pmiVector = .irq) (hglobal : global ≠ 0) (p : Pcpu Task)
    (inService : Bool) :
    let accesses := (pmiAccesses s current global).2
    (accesses.foldl Access.apply p).lvtpc = RECODE_PMI ∧
      (accesses.foldl Access.apply p).eois = p.eois + 1 ∧
      accesses.foldl service inService = false ∧ .ovfCtrl global ∈ accesses := by
  have hrearm : rearmAccesses s global =
      ([.lvtpc RECODE_PMI,.eoi,.ovfCtrl global] : List (Access Task)) := by
    rw [rearmAccesses,hv]
  have hsample := (foldl_sampleAccesses s current global p inService).2.1
  dsimp only
  rw [pmiAccesses,if_neg hglobal]
  dsimp only
  rw [hrearm,List.foldl_append,List.foldl_append]
  refine ⟨rfl,congrArg (· + 1) hsample,rfl,?_⟩
  simp

end Sample

section Deliver
variable [DecidableEq Cpu]

/-- A PMI: the APIC masks LVTPC, marks the vector in service, unless it is the NMI, and the CPU
runs the handler. -/
def deliver (a : Apic Cpu Task) (e : Pmi Cpu Task) : Apic Cpu Task :=
  if a.Open e.cpu then
    let p := a.pmu.pcpu e.cpu
    let p := { p with lvtpc := p.lvtpc ||| APIC_LVT_MASKED, globalStatus := e.globalStatus }
    let accesses := (pmiAccesses a.pmu e.current e.globalStatus).2
    { pmu := { a.pmu with
        pcpu := Function.update a.pmu.pcpu e.cpu (accesses.foldl Access.apply p) }
      inService := Function.update a.inService e.cpu
        (accesses.foldl service (a.pmu.pmiVector == .irq)) }
  else a

/-- The PMI came, and the handler has prepared the next one. -/
structure Rearmed (a : Apic Cpu Task) (e : Pmi Cpu Task) : Prop where
  delivered : a.Open e.cpu
  lvtpc : ((a.deliver e).pmu.pcpu e.cpu).lvtpc = RECODE_PMI
  eoi : ((a.deliver e).pmu.pcpu e.cpu).eois = (a.pmu.pcpu e.cpu).eois + 1
  acknowledged : ∀ i, e.globalStatus.getLsbD i = true →
    ∃ v, .ovfCtrl v ∈ (pmiAccesses a.pmu e.current e.globalStatus).2 ∧ v.getLsbD i = true
  outOfService : (a.deliver e).inService e.cpu = false

lemma deliver_pmu {a : Apic Cpu Task} {e : Pmi Cpu Task} (h : a.inService e.cpu = false) :
    (a.deliver e).pmu = Pmu.deliver a.pmu e := by
  unfold deliver Pmu.deliver
  by_cases hmask : (a.pmu.pcpu e.cpu).lvtpc &&& APIC_LVT_MASKED = 0
  · rw [if_pos ⟨hmask,h⟩,if_neg (not_not.mpr hmask)]
    dsimp only
    rw [pmiHandler_eq_accesses]
  · rw [if_neg (fun hopen => hmask hopen.1),if_pos hmask]

section Armed
variable {a : Apic Cpu Task} {e : Pmi Cpu Task}

lemma Armed.deliver (h : Armed a) (hglobal : e.globalStatus ≠ 0) : Armed (a.deliver e) := by
  obtain ⟨hlvtpc,-,hservice,-⟩ := foldl_pmiAccesses e.current h.vector hglobal
    { a.pmu.pcpu e.cpu with
      lvtpc := (a.pmu.pcpu e.cpu).lvtpc ||| APIC_LVT_MASKED
      globalStatus := e.globalStatus } (a.pmu.pmiVector == .irq)
  rw [Apic.deliver,if_pos (h.open e.cpu)]
  exact ⟨h.vector,Update.all (P := fun _ p => Pcpu.lvtpc p = RECODE_PMI) hlvtpc h.lvtpc,
    Update.all (P := fun _ b => b = false) hservice h.service⟩

/-- From an armed APIC on, the next PMI is prepared exactly if this one had a status. -/
theorem Armed.rearmed_iff (h : Armed a) : a.Rearmed e ↔ e.globalStatus ≠ 0 := by
  constructor
  · intro hrearmed hzero
    have hlvtpc := hrearmed.lvtpc
    rw [deliver_pmu (h.service e.cpu),Pmu.deliver,if_neg (not_not.mpr (h.open e.cpu).1)] at hlvtpc
    dsimp only at hlvtpc
    rw [Function.update_self,pmiHandler_lvtpc,if_pos hzero,h.lvtpc] at hlvtpc
    dsimp only at hlvtpc
    exact absurd hlvtpc (by decide)
  · intro hglobal
    obtain ⟨-,heoi,-,hovf⟩ := foldl_pmiAccesses e.current h.vector hglobal
      { a.pmu.pcpu e.cpu with
        lvtpc := (a.pmu.pcpu e.cpu).lvtpc ||| APIC_LVT_MASKED
        globalStatus := e.globalStatus } (a.pmu.pmiVector == .irq)
    have harmed := h.deliver hglobal
    refine ⟨h.open e.cpu,harmed.lvtpc e.cpu,?_,fun i hi => ⟨e.globalStatus,hovf,hi⟩,
      harmed.service e.cpu⟩
    rw [Apic.deliver,if_pos (h.open e.cpu)]
    dsimp only
    rw [Function.update_self]
    exact heoi

end Armed

/-- A PMI that finds no status set leaves LVTPC masked and its vector in service. -/
theorem spurious_pmi_not_rearmed :
    let p : Pcpu Unit := ⟨0,0,0,0,0,fun _ => 0,0,0,0,[]⟩
    let s : State Unit Unit := ⟨false,0,1,0,0,2^28-1,.irq,false,false,fun _ => p⟩
    ¬ Admits deliver Rearmed ⟨(initPmu ⟨48,8,3⟩ 239 s).2,fun _ => false⟩ [⟨(),(),0⟩] := by
  intro p s h
  exact absurd h.1.outOfService (by decide)

/-- With the IRQ vector, from a successful `init_pmu` on, every PMI of a run prepares the next one
on its CPU exactly if none of them reads a status of zero. -/
theorem irq_rearmed_iff (info : Cpuid10) {s : State Cpu Task} (hv : s.pmiVector = .irq)
    (pmis : List (Pmi Cpu Task)) :
    Admits deliver Rearmed ⟨(initPmu info RECODE_PMI.toNat s).2,fun _ => false⟩ pmis ↔
      ∀ e ∈ pmis, e.globalStatus ≠ 0 := by
  have hinit := initPmu_inits info RECODE_PMI.toNat s
  have harmed : Armed (⟨(initPmu info RECODE_PMI.toNat s).2,fun _ => false⟩ : Apic Cpu Task) := by
    refine ⟨hinit.vector.trans hv,fun cpu => ?_,fun _ => rfl⟩
    rw [hinit.lvtpc,hv]
    rfl
  have hconst := admits_const_iff (P := fun e : Pmi Cpu Task => e.globalStatus ≠ 0) deliver
    ⟨(initPmu info RECODE_PMI.toNat s).2,fun _ => false⟩ pmis
  rw [← hconst]
  refine admits_iff_of_invariant (I := Armed) ?_ ?_ pmis harmed
  · intro a e ha
    exact ha.rearmed_iff
  · intro a e ha hglobal
    exact ha.deliver hglobal

theorem irq_rearmed_served :
    let p : Pcpu Unit := ⟨0,0,0,0,0,fun _ => 0,0,0,0,[]⟩
    let s : State Unit Unit := ⟨false,0,1,0,0,2^28-1,.irq,false,false,fun _ => p⟩
    Admits deliver Rearmed ⟨(initPmu ⟨48,8,3⟩ 239 s).2,fun _ => false⟩
      [⟨(),(),1#64 <<< 33⟩,⟨(),(),1#64 <<< 63⟩] :=
  (irq_rearmed_iff ⟨48,8,3⟩ rfl _).mpr (by decide)

end Deliver

end Apic

/-- A PMI, and what `snapshot_pmc` finds if it is called. -/
structure PmiCall (Cpu Task : Type) extends Pmi Cpu Task where
  call : Snapshot

namespace Sampler
variable {Cpu Task : Type} [DecidableEq Cpu]

/-- An access on the CPU of the interrupt, with the samples taken so far. -/
def access (cpu : Cpu) (call : Snapshot) (r : Sampler Cpu Task × List (List Word))
    (a : Access Task) : Sampler Cpu Task × List (List Word) :=
  let pmu := { r.1.pmu with
    pcpu := Function.update r.1.pmu.pcpu cpu (a.apply (r.1.pmu.pcpu cpu)) }
  let s := { r.1 with pmu }
  match a with
  | .snapshot _ =>
    let out := s.snapshotPmc call
    (out.1,r.2 ++ out.2.toList)
  | _ => (s,r.2)

/-- A call of `pmi_handler`: its result, and the samples it takes. -/
def pmi (s : Sampler Cpu Task) (e : PmiCall Cpu Task) :
    ℕ × Sampler Cpu Task × List (List Word) :=
  let r := pmiAccesses s.pmu e.current e.globalStatus
  (r.1,r.2.foldl (access e.cpu e.call) (s,[]))

/-- Some bit other than the last, which tells that a condition changed, is set. -/
def Overflow (global : Word) : Prop := global &&& PERF_COND_CHGD_IGNORE_MASK ≠ 0

instance : DecidablePred Overflow := fun _ => inferInstanceAs (Decidable (_ ≠ _))

/-- The interrupt is handled, counted and sampled, and the counter starts anew. -/
structure Sampled (s : Sampler Cpu Task) (e : PmiCall Cpu Task) : Prop where
  handled : (s.pmi e).1 = 1
  counter : ((s.pmi e).2.1.pmu.pcpu e.cpu).pmiCounter = (s.pmu.pcpu e.cpu).pmiCounter + 1
  snapshot : ((s.pmi e).2.1.pmu.pcpu e.cpu).snapshots =
    e.current :: (s.pmu.pcpu e.cpu).snapshots
  sample : (s.pmi e).2.2 = (s.snapshotPmc e.call).2.toList
  reload : ((s.pmi e).2.1.pmu.pcpu e.cpu).fixedCtr =
    Function.update (s.pmu.pcpu e.cpu).fixedCtr s.pmu.gblFixedPmcPmi
      (pmcTrim (pmcTrim (~~~s.pmu.resetPeriod)))

/-- The interrupt leaves no sample and no trace in the counters; a status is acknowledged. -/
structure Passed (s : Sampler Cpu Task) (e : PmiCall Cpu Task) : Prop where
  handled : (s.pmi e).1 = 0
  counter : ((s.pmi e).2.1.pmu.pcpu e.cpu).pmiCounter = (s.pmu.pcpu e.cpu).pmiCounter
  snapshot : ((s.pmi e).2.1.pmu.pcpu e.cpu).snapshots = (s.pmu.pcpu e.cpu).snapshots
  sample : (s.pmi e).2.2 = []
  reload : ((s.pmi e).2.1.pmu.pcpu e.cpu).fixedCtr = (s.pmu.pcpu e.cpu).fixedCtr
  acknowledged : e.globalStatus ≠ 0 →
    ((s.pmi e).2.1.pmu.pcpu e.cpu).lvtpc = lvtEntry s.pmu.pmiVector ∧
      .ovfCtrl e.globalStatus ∈ (pmiAccesses s.pmu e.current e.globalStatus).2

/-- Exactly the overflows are sampled. -/
def Genuine (s : Sampler Cpu Task) (e : PmiCall Cpu Task) : Prop :=
  if Overflow e.globalStatus then s.Sampled e else s.Passed e

def nextPmi (s : Sampler Cpu Task) (e : PmiCall Cpu Task) : Sampler Cpu Task := (s.pmi e).2.1

end Sampler

lemma not_overflow_iff (global : Word) :
    ¬ Sampler.Overflow global ↔ global = 0 ∨ global = 1#64 <<< 63 := by
  rw [Sampler.Overflow,not_not]
  constructor
  · intro h
    have hmod := congrArg BitVec.toNat h
    have hlt := global.isLt
    have hmask : PERF_COND_CHGD_IGNORE_MASK.toNat = 2^63 - 1 := by decide
    rw [BitVec.toNat_and,hmask,Nat.and_two_pow_sub_one_eq_mod] at hmod
    rw [← BitVec.toNat_inj,← BitVec.toNat_inj]
    have hlast : (1#64 <<< 63).toNat = 2^63 := by decide
    rw [hlast]
    have hzero : (0 : Word).toNat = 0 := rfl
    rw [hzero] at hmod ⊢
    omega
  · rintro (rfl | rfl) <;> decide

section Handler
variable {Cpu Task : Type} (s : State Cpu Task) {global : Word}

lemma not_noPmi (hglobal : global ≠ 0) : ¬ NoPmi s global := by
  rintro ⟨-,hmask⟩
  exact hmask ⟨hglobal,by decide⟩

lemma pmiAccesses_of_ne_zero (current : Task) (hglobal : global ≠ 0) :
    pmiAccesses s current global =
      (1,[.counter,.snapshot current,.fixedCtr s.gblFixedPmcPmi (pmcTrim (~~~s.resetPeriod))] ++
        rearmAccesses s global) := by
  rw [pmiAccesses,if_neg hglobal,sampleAccesses,if_neg (not_noPmi s hglobal)]

variable (global) in
lemma foldl_rearmAccesses (p : Pcpu Task) :
    let q := (rearmAccesses s global).foldl Access.apply p
    q.pmiCounter = p.pmiCounter ∧ q.snapshots = p.snapshots ∧ q.fixedCtr = p.fixedCtr ∧
      q.lvtpc = lvtEntry s.pmiVector := by
  unfold rearmAccesses
  cases s.pmiVector <;> exact ⟨rfl,rfl,rfl,rfl⟩

end Handler

namespace Sampler
variable {Cpu Task : Type} [DecidableEq Cpu]

lemma foldl_access_pcpu (cpu : Cpu) (call : Snapshot) (accesses : List (Access Task))
    (r : Sampler Cpu Task × List (List Word)) :
    (accesses.foldl (access cpu call) r).1.pmu.pcpu cpu =
      accesses.foldl Access.apply (r.1.pmu.pcpu cpu) := by
  induction accesses generalizing r with
  | nil => rfl
  | cons a accesses ih =>
    have hstep : (access cpu call r a).1.pmu.pcpu cpu = a.apply (r.1.pmu.pcpu cpu) := by
      cases a with
      | snapshot task =>
        simp only [access,snapshotPmc_pmu,Function.update_self]
      | _ => exact Function.update_self ..
    rw [List.foldl_cons,ih,hstep,List.foldl_cons]

lemma foldl_rearmAccesses_samples (cpu : Cpu) (call : Snapshot) (s : State Cpu Task)
    (global : Word) (r : Sampler Cpu Task × List (List Word)) :
    ((rearmAccesses s global).foldl (access cpu call) r).2 = r.2 := by
  unfold rearmAccesses
  cases s.pmiVector <;> rfl

variable {s : Sampler Cpu Task} {e : PmiCall Cpu Task}

/-- Whatever the status is, unless it is zero, the interrupt counts as an overflow. -/
theorem sampled_of_ne_zero (hglobal : e.globalStatus ≠ 0) : s.Sampled e := by
  have haccesses := pmiAccesses_of_ne_zero s.pmu e.current hglobal
  have hpcpu : (s.pmi e).2.1.pmu.pcpu e.cpu =
      (pmiAccesses s.pmu e.current e.globalStatus).2.foldl Access.apply (s.pmu.pcpu e.cpu) :=
    foldl_access_pcpu ..
  rw [haccesses,List.foldl_append] at hpcpu
  obtain ⟨hcounter,hsnapshots,hfixed,-⟩ := foldl_rearmAccesses s.pmu e.globalStatus
    ([.counter,.snapshot e.current,
      .fixedCtr s.pmu.gblFixedPmcPmi (pmcTrim (~~~s.pmu.resetPeriod))].foldl Access.apply
      (s.pmu.pcpu e.cpu))
  refine ⟨?_,?_,?_,?_,?_⟩
  · rw [pmi,haccesses]
  · rw [hpcpu,hcounter]
    rfl
  · rw [hpcpu,hsnapshots]
    rfl
  · rw [pmi,haccesses,List.foldl_append]
    dsimp only
    rw [foldl_rearmAccesses_samples]
    simp only [List.foldl_cons,List.foldl_nil,access,snapshotPmc,List.nil_append]
    split <;> rfl
  · rw [hpcpu,hfixed]
    rfl

/-- With a status of zero the handler has nothing to do. -/
theorem passed_of_eq_zero (hglobal : e.globalStatus = 0) : s.Passed e := by
  have hpmi : s.pmi e = (0,s,[]) := by
    rw [pmi,pmiAccesses,if_pos hglobal]
    rfl
  refine ⟨?_,?_,?_,?_,?_,absurd hglobal⟩ <;> rw [hpmi]

theorem genuine_iff (s : Sampler Cpu Task) (e : PmiCall Cpu Task) :
    s.Genuine e ↔ e.globalStatus ≠ 1#64 <<< 63 := by
  rw [Genuine]
  by_cases hover : Overflow e.globalStatus
  · have hne : ¬ (e.globalStatus = 0 ∨ e.globalStatus = 1#64 <<< 63) :=
      fun h => (not_overflow_iff _).mpr h hover
    rw [if_pos hover]
    exact iff_of_true (sampled_of_ne_zero fun h => hne (.inl h)) fun h => hne (.inr h)
  · rw [if_neg hover]
    rcases (not_overflow_iff _).mp hover with hzero | hlast
    · apply iff_of_true (passed_of_eq_zero hzero)
      rw [hzero]
      decide
    · refine iff_of_false (fun hpassed => ?_) (not_not.mpr hlast)
      have hsampled : s.Sampled e := sampled_of_ne_zero (by rw [hlast]; decide)
      exact absurd (hsampled.handled.symm.trans hpassed.handled) (by decide)

/-- A status in which only the last bit is set is sampled like an overflow. -/
theorem condition_change_sampled :
    let p : Pcpu Unit := ⟨0,0,0,0,0,fun _ => 0,0,0,0,[]⟩
    let s : Sampler Unit Unit :=
      ⟨⟨true,0,1,3,8,2^28-1,.irq,false,true,fun _ => p⟩,2,fun _ _ => 0⟩
    ¬ Admits nextPmi Genuine s [⟨⟨(),(),1#64 <<< 63⟩,⟨8,fun _ => 0⟩⟩] := by
  intro p s h
  have hpassed := (if_neg (by decide)).mp h.1
  exact absurd hpassed.handled (by decide)

/-- Exactly the overflows are sampled in those runs of PMIs, tracked tasks or not, in which no
status has the last bit alone. -/
theorem only_overflows_sampled_iff (s : Sampler Cpu Task) (pmis : List (PmiCall Cpu Task)) :
    Admits nextPmi Genuine s pmis ↔ ∀ e ∈ pmis, e.globalStatus ≠ 1#64 <<< 63 := by
  have hconst := admits_const_iff (P := fun e : PmiCall Cpu Task => e.globalStatus ≠ 1#64 <<< 63)
    nextPmi s pmis
  rw [← hconst]
  exact admits_congr genuine_iff s pmis

end Sampler
end PmuMin.Pmu
