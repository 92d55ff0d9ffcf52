import PmuMin.Client.Heap
import PmuMin.Client.Pmu
import PmuMin.Library.Update

/-! The sample of `snapshot_pmc`: its two loops over `struct pmcs_data`, whose bounds come from
CPUID and from the module parameter `readable_pmcs`. -/
namespace PmuMin.Pmu
open Machine

/-- An element of one of the two arrays of `struct pmcs_data`, in them or past their end. -/
inductive Counter
  | fixed (pmc : ℕ)
  | general (pmc : ℕ)
  deriving DecidableEq, Repr

namespace Counter

/-- The word of the structure that holds it: `general` follows the three words of `fixed`. -/
def word : Counter → ℕ
  | fixed pmc => pmc
  | general pmc => 3 + pmc

def InBounds : Counter → Prop
  | fixed pmc => pmc < 3
  | general pmc => pmc < 8

instance : DecidablePred InBounds
  | fixed pmc => inferInstanceAs (Decidable (pmc < 3))
  | general pmc => inferInstanceAs (Decidable (pmc < 8))

end Counter

/-- What `rdpmc` gives for each index. -/
abbrev Rdpmc := ℕ → Word

def RDPMC_FIXED_CTR0 : ℕ := 2^30
def RDPMC_GENERAL_CTR0 : ℕ := 0

def readFixedPmc (rdpmc : Rdpmc) (n : ℕ) : Word := rdpmc (RDPMC_FIXED_CTR0 + n)
def readGeneralPmc (rdpmc : Rdpmc) (n : ℕ) : Word := rdpmc (RDPMC_GENERAL_CTR0 + n)

/-- A call of `snapshot_pmc`: what `query_data_tracker` gives for the task, and the counters. -/
structure Snapshot where
  procData : Word
  rdpmc : Rdpmc

/-- The globals that the call reads, and the words of the `pmcs` field at each address. -/
structure Sampler (Cpu Task : Type) where
  pmu : State Cpu Task
  readablePmcs : BitVec 32
  pmcs : Word → ℕ → Word

inductive SamplerEvent
  | probe (info : Cpuid10)
  | set (info : Cpuid10) (kstrtoint : ℤ × BitVec 32)
  | snapshot (call : Snapshot)

namespace Sampler
variable {Cpu Task : Type}

/-- `readable_pmcs_set`; `kstrtoint` is the result of the call of that name and what it stores. -/
def readablePmcsSet (info : Cpuid10) (kstrtoint : ℤ × BitVec 32) (s : Sampler Cpu Task) :
    ℤ × Sampler Cpu Task :=
  let s := { s with pmu := getMachineConfiguration info s.pmu }
  let ret := kstrtoint.1
  if ret < 0 then (ret,s) else (ret,{ s with readablePmcs := kstrtoint.2 })

/-- The stores that the loops make, in their order. -/
def stores (s : Sampler Cpu Task) (rdpmc : Rdpmc) : List (Counter × Word) :=
  (List.range s.pmu.gblNrPmcFixed.toNat).map (fun pmc => (.fixed pmc,readFixedPmc rdpmc pmc)) ++
    (List.range s.readablePmcs.toInt.toNat).map fun pmc =>
      (.general pmc,readGeneralPmc rdpmc (pmc &&& 1))

/-- The words of the structure after the loops. -/
def copied (s : Sampler Cpu Task) (call : Snapshot) : ℕ → Word :=
  Update.stores (s.pmcs call.procData) ((s.stores call.rdpmc).map fun st => (st.1.word,st.2))

/-- `snapshot_pmc`, with the 11 words that it passes to `write_sample`. -/
def snapshotPmc (s : Sampler Cpu Task) (call : Snapshot) :
    Sampler Cpu Task × Option (List Word) :=
  if call.procData = NULL then (s,none)
  else
    let words := s.copied call
    ({ s with pmcs := Function.update s.pmcs call.procData words },
      some ((List.range (3+8)).map words))

def next (s : Sampler Cpu Task) : SamplerEvent → Sampler Cpu Task
  | .probe info => { s with pmu := getMachineConfiguration info s.pmu }
  | .set info kstrtoint => (s.readablePmcsSet info kstrtoint).2
  | .snapshot call => (s.snapshotPmc call).1

lemma snapshotPmc_pmu (s : Sampler Cpu Task) (call : Snapshot) :
    (s.snapshotPmc call).1.pmu = s.pmu := by
  rw [snapshotPmc]
  split <;> rfl

/-- Every store of the call is within its array, and the fixed counters end up in their places. -/
def Inside (s : Sampler Cpu Task) : SamplerEvent → Prop
  | .snapshot call => call.procData ≠ NULL →
    (∀ st ∈ s.stores call.rdpmc, st.1.InBounds) ∧
      ∀ pmc < s.pmu.gblNrPmcFixed.toNat,
        (s.next (.snapshot call)).pmcs call.procData (Counter.fixed pmc).word =
          readFixedPmc call.rdpmc pmc
  | _ => True

/-- The arrays are as long as the loops. -/
def Bounded (s : Sampler Cpu Task) : SamplerEvent → Prop
  | .snapshot call => call.procData ≠ NULL →
    s.pmu.gblNrPmcFixed.toNat ≤ 3 ∧ s.readablePmcs.toInt ≤ 8
  | _ => True

section Call
variable {s : Sampler Cpu Task} {rdpmc : Rdpmc}

theorem stores_inBounds_iff : (∀ st ∈ s.stores rdpmc, st.1.InBounds) ↔
    s.pmu.gblNrPmcFixed.toNat ≤ 3 ∧ s.readablePmcs.toInt ≤ 8 := by
  constructor
  · intro h
    constructor
    · by_contra hlong
      have hmem : (.fixed 3,readFixedPmc rdpmc 3) ∈ s.stores rdpmc :=
        List.mem_append_left _ (List.mem_map.mpr ⟨3,List.mem_range.mpr (by omega),rfl⟩)
      exact lt_irrefl 3 (h _ hmem)
    · by_contra hlong
      have hmem : (.general 8,readGeneralPmc rdpmc (8 &&& 1)) ∈ s.stores rdpmc :=
        List.mem_append_right _ (List.mem_map.mpr ⟨8,List.mem_range.mpr (by omega),rfl⟩)
      exact lt_irrefl 8 (h _ hmem)
  · rintro ⟨hfixed,hgeneral⟩ st hst
    rcases List.mem_append.mp hst with hst | hst
    · obtain ⟨pmc,hpmc,rfl⟩ := List.mem_map.mp hst
      exact (List.mem_range.mp hpmc).trans_le hfixed
    · obtain ⟨pmc,hpmc,rfl⟩ := List.mem_map.mp hst
      have hlt := List.mem_range.mp hpmc
      change pmc < 8
      omega

/-- No more than three fixed counters: each has its word for itself. -/
lemma copied_fixed {call : Snapshot} (hfixed : s.pmu.gblNrPmcFixed.toNat ≤ 3) {pmc : ℕ}
    (hpmc : pmc < s.pmu.gblNrPmcFixed.toNat) :
    s.copied call (Counter.fixed pmc).word = readFixedPmc call.rdpmc pmc := by
  apply Update.stores_of_agree
  · intro st hst hword
    obtain ⟨⟨counter,value⟩,hmem,rfl⟩ := List.mem_map.mp hst
    rcases List.mem_append.mp hmem with hmem | hmem
    · obtain ⟨pmc',-,heq⟩ := List.mem_map.mp hmem
      obtain ⟨rfl,rfl⟩ := Prod.mk.inj heq
      exact congrArg (readFixedPmc call.rdpmc) hword
    · obtain ⟨pmc',-,heq⟩ := List.mem_map.mp hmem
      obtain ⟨rfl,rfl⟩ := Prod.mk.inj heq
      -- a general counter lies behind all three words
      have hbehind : 3 + pmc' = pmc := hword
      omega
  · refine ⟨(pmc,readFixedPmc call.rdpmc pmc),List.mem_map.mpr
      ⟨(.fixed pmc,readFixedPmc call.rdpmc pmc),?_,rfl⟩,rfl⟩
    exact List.mem_append_left _ (List.mem_map.mpr ⟨pmc,List.mem_range.mpr hpmc,rfl⟩)

theorem inside_iff (s : Sampler Cpu Task) (e : SamplerEvent) : s.Inside e ↔ s.Bounded e := by
  cases e with
  | probe | set => rfl
  | snapshot call =>
    refine forall_congr' fun hdata => ⟨fun h => stores_inBounds_iff.mp h.1,fun h => ?_⟩
    refine ⟨stores_inBounds_iff.mpr h,fun pmc hpmc => ?_⟩
    rw [next,snapshotPmc,if_neg hdata]
    dsimp only
    rw [Function.update_self]
    exact copied_fixed h.1 hpmc

end Call

end Sampler

namespace SamplerEvent

/-- The answer of CPUID, if the event may ask for it. -/
def info : SamplerEvent → Option Cpuid10
  | probe info | set info _ => some info
  | snapshot _ => none

/-- The number of fixed counters in an answer that `get_machine_configuration` accepts. -/
def fixedCounters (e : SamplerEvent) : Option (BitVec 5) :=
  e.info.bind fun info => if info.maskLength < 7 then none else some info.numCountersFixed

/-- The integer that `readable_pmcs_set` accepts. -/
def readable : SamplerEvent → Option (BitVec 32)
  | set _ kstrtoint => if kstrtoint.1 < 0 then none else some kstrtoint.2
  | probe _ | snapshot _ => none

end SamplerEvent

namespace Sampler
variable {Cpu Task : Type} (s : Sampler Cpu Task) (e : SamplerEvent)

lemma next_pmu : (s.next e).pmu =
    (e.info.elim s.pmu fun info => getMachineConfiguration info s.pmu) := by
  cases e with
  | probe info => rfl
  | set info kstrtoint =>
    rw [next,readablePmcsSet]
    dsimp only
    split <;> rfl
  | snapshot call => exact snapshotPmc_pmu s call

lemma next_readablePmcs : (s.next e).readablePmcs = e.readable.getD s.readablePmcs := by
  cases e with
  | probe info => rfl
  | set info kstrtoint =>
    rw [next,readablePmcsSet,SamplerEvent.readable]
    dsimp only
    split <;> rfl
  | snapshot call =>
    rw [next,snapshotPmc]
    split <;> rfl

/-- The first accepted answer of CPUID stays. -/
lemma foldl_gblNrPmcFixed (events : List SamplerEvent) (s : Sampler Cpu Task) :
    (events.foldl next s).pmu.gblNrPmcFixed =
      if s.pmu.machineInfoRead then s.pmu.gblNrPmcFixed
      else (events.findSome? SamplerEvent.fixedCounters).getD s.pmu.gblNrPmcFixed := by
  induction events generalizing s with
  | nil =>
    split <;> rfl
  | cons e events ih =>
    rw [List.foldl_cons,ih,next_pmu,List.findSome?_cons,SamplerEvent.fixedCounters]
    cases e.info with
    | none => rfl
    | some info =>
      rw [Option.elim_some,Option.bind_some,getMachineConfiguration]
      by_cases hread : s.pmu.machineInfoRead = true
      · rw [if_pos hread,if_pos hread,if_pos hread]
      · rw [if_neg hread,if_neg hread]
        by_cases hlen : info.maskLength < 7
        · rw [if_pos hlen,if_pos hlen,if_neg hread]
        · rw [if_neg hlen,if_neg hlen,if_pos rfl,Option.getD_some]

/-- The last accepted integer counts. -/
lemma foldl_readablePmcs (events : List SamplerEvent) (s : Sampler Cpu Task) :
    (events.foldl next s).readablePmcs =
      (events.filterMap SamplerEvent.readable).getLastD s.readablePmcs := by
  induction events generalizing s with
  | nil => rfl
  | cons e events ih =>
    rw [List.foldl_cons,ih,next_readablePmcs,List.filterMap_cons]
    cases e.readable with
    | none => rfl
    | some val => rw [List.getLastD_cons]; rfl

/-- A machine of four fixed counters: the fourth is stored over the first general one. -/
theorem fourth_counter_stored :
    let p : Pcpu Unit := ⟨0,0,0,0,0,fun _ => 0,0,0,0,[]⟩
    let s : Sampler Unit Unit :=
      ⟨⟨false,0,1,0,0,2^28-1,.irq,false,false,fun _ => p⟩,0,fun _ _ => 0⟩
    ¬ Admits next Inside s [.probe ⟨48,8,4⟩,.snapshot ⟨8,fun _ => 0⟩] := by
  intro p s h
  have hstore := (h.2.1 (by decide)).1 (.fixed 3,0) (by decide)
  exact absurd hstore (by decide)

/-- A call of `snapshot_pmc` on a tracked task stays inside the sample, in any run, exactly if the
first accepted answer of CPUID reports three fixed counters at most and the last accepted
`readable_pmcs` is no more than eight. -/
theorem sampling_inside_iff {s : Sampler Cpu Task} (hread : s.pmu.machineInfoRead = false)
    (events : List SamplerEvent) :
    Admits next Inside s events ↔ ∀ as call bs, events = as ++ .snapshot call :: bs →
      call.procData ≠ NULL →
        ((as.findSome? SamplerEvent.fixedCounters).getD s.pmu.gblNrPmcFixed).toNat ≤ 3 ∧
          ((as.filterMap SamplerEvent.readable).getLastD s.readablePmcs).toInt ≤ 8 := by
  have hiff : Admits next Inside s events ↔ Admits next Bounded s events :=
    admits_congr inside_iff s events
  rw [hiff,admits_iff_forall_cut]
  constructor
  · intro h as call bs heq hdata
    have hbounded := h as (.snapshot call) bs heq hdata
    rw [foldl_gblNrPmcFixed,foldl_readablePmcs,hread] at hbounded
    exact hbounded
  · intro h as e bs heq
    cases e with
    | probe | set => trivial
    | snapshot call =>
      intro hdata
      rw [foldl_gblNrPmcFixed,foldl_readablePmcs,hread]
      exact h as call bs heq hdata

/-- Three fixed counters, and two general ones asked for. -/
theorem sampling_inside_served :
    let p : Pcpu Unit := ⟨0,0,0,0,0,fun _ => 0,0,0,0,[]⟩
    let s : Sampler Unit Unit :=
      ⟨⟨false,0,1,0,0,2^28-1,.irq,false,false,fun _ => p⟩,0,fun _ _ => 0⟩
    let events : List SamplerEvent := [.set ⟨48,8,3⟩ (0,2),.snapshot ⟨8,fun _ => 7⟩]
    Admits next Inside s events := by
  refine (sampling_inside_iff rfl _).mpr fun as call bs heq _ => ?_
  rcases as with _ | ⟨e,_ | ⟨e',as⟩⟩
  · simp at heq
  · obtain ⟨rfl,-⟩ := List.cons.inj heq
    decide
  · simp at heq

end Sampler
end PmuMin.Pmu
