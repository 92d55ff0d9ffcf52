import PmuMin.Client.Buffering
import PmuMin.Client.Pmu
import PmuMin.Hook.Callbacks

/-! Loading the client: `client_module_init` over the buffering layer, the hooks, the PMU and the
entries under `/proc`. -/
namespace PmuMin.Client
open Pmu

/-- The functions the client installs. -/
inductive ClientHook
  | onAttach
  | onDetach
  | schedIn
  deriving DecidableEq, Repr

/-- What loading changes; the last two are the directory `client_module` and its entry
`processes`. -/
structure Module (Cpu Task : Type) where
  buffers : Statics Cpu
  shook : Shook ClientHook
  pmu : Pmu.State Cpu Task
  procDir : Bool
  procProcesses : Bool

/-- The outcomes of the steps that may fail: the allocations, the registration of the PMI handler,
`proc_mkdir` and `proc_create`. -/
structure Outcomes (Cpu : Type) where
  allocs : ListAllocs Cpu
  reg : ℤ
  procMkdir : Bool
  procCreate : Bool

variable {Cpu Task : Type}

def initShook (s : Shook ClientHook) : ℤ × Shook ClientHook :=
  let s := s.setShookCallback (some .onAttach) .onAttach
  let s := s.setShookCallback (some .onDetach) .onDetach
  let s := s.setShookCallback (some .schedIn) .schedIn
  let s := s.switchHookSetSystemWideMode true
  (0,s.switchHookSetStateEnable true)

def finiShook (s : Shook ClientHook) : Shook ClientHook :=
  let s := s.switchHookSetStateEnable false
  let s := s.switchHookSetSystemWideMode false
  let s := s.setShookCallback none .schedIn
  let s := s.setShookCallback none .onAttach
  s.setShookCallback none .onDetach

def registerProcProcesses (procCreate : Bool) (s : Module Cpu Task) : ℤ × Module Cpu Task :=
  (if procCreate then 0 else 1,{ s with procProcesses := procCreate })

/-- `proc_remove` of the directory takes its entries along. -/
def procRemove (s : Module Cpu Task) : Module Cpu Task :=
  { s with procDir := false, procProcesses := false }

def initProc (procMkdir procCreate : Bool) (s : Module Cpu Task) : ℤ × Module Cpu Task :=
  if !procMkdir then (0,s)
  else
    let r := registerProcProcesses procCreate { s with procDir := true }
    if r.1 ≠ 0 then (r.1,procRemove r.2) else r

section Load
variable [DecidableEq Cpu] (build : Build) (possible : Possible Cpu) (info : Cpuid10)

def clientModuleInit (o : Outcomes Cpu) (s : Module Cpu Task) : ℤ × Module Cpu Task :=
  let b := bufferingStaticInit build possible o.allocs sizeofPmcsData s.buffers
  let s := { s with buffers := b.2 }
  if b.1 ≠ 0 then (b.1,s)
  else
    let h := initShook s.shook
    let s := { s with shook := h.2 }
    if h.1 ≠ 0 then
      (h.1,{ s with buffers := bufferingStaticFini build possible s.buffers })
    else
      let p := initPmu info o.reg s.pmu
      let s := { s with pmu := p.2 }
      if p.1 ≠ 0 then
        let s := { s with shook := finiShook s.shook }
        (p.1,{ s with buffers := bufferingStaticFini build possible s.buffers })
      else
        let q := initProc o.procMkdir o.procCreate s
        let s := q.2
        if q.1 ≠ 0 then
          let s := { s with pmu := finiPmu s.pmu }
          let s := { s with shook := finiShook s.shook }
          (q.1,{ s with buffers := bufferingStaticFini build possible s.buffers })
        else (0,s)

omit [DecidableEq Cpu] in
/-- Everything is in place. -/
structure Loaded (s : Module Cpu Task) : Prop where
  lists : ListsInPlace build possible sizeofPmcsData s.buffers
  schedIn : s.shook.hookSchedIn = .installed .schedIn
  onAttach : s.shook.hookOnAttach = .installed .onAttach
  onDetach : s.shook.hookOnDetach = .installed .onDetach
  enabled : s.shook.shookEnabled = true
  handler : s.pmu.registered = true
  procDir : s.procDir = true
  procProcesses : s.procProcesses = true

omit [DecidableEq Cpu] in
/-- The module holds nothing: no list, no PMI handler, no entry under `/proc`. -/
structure HoldsNothing (s : Module Cpu Task) : Prop where
  lists : NoLists s.buffers
  nmiHandler : s.pmu.nmiHandler = false
  fastIrq : s.pmu.fastIrq = false
  procDir : s.procDir = false
  procProcesses : s.procProcesses = false

omit [DecidableEq Cpu] in
/-- The callbacks of the client are the dummies, the hooks disabled and the counters off. -/
structure Idle (s : Module Cpu Task) : Prop where
  schedIn : s.shook.hookSchedIn = .dummy
  onAttach : s.shook.hookOnAttach = .dummy
  onDetach : s.shook.hookOnDetach = .dummy
  disabled : s.shook.shookEnabled = false
  pmcs : ∀ cpu, (s.pmu.pcpu cpu).globalCtrl = 0

omit [DecidableEq Cpu] in
/-- Zero and everything is in place, or a negative errno and nothing is. -/
def AllOrNothing (r : ℤ × Module Cpu Task) : Prop :=
  r.1 = 0 ∧ Loaded build possible r.2 ∨ r.1 < 0 ∧ HoldsNothing r.2 ∧ Idle r.2

omit [DecidableEq Cpu] in
/-- All lists are made and, if the PMI handler can be registered, both proc entries are; or the
first list of the CPU policy fails, on a machine whose hooks and counters were off already. -/
def LoadsCleanly (o : Outcomes Cpu) (s : Module Cpu Task) : Prop :=
  AllListsMade build possible o.allocs ∧
      (Registers s.pmu.pmiVector o.reg → o.procMkdir = true ∧ o.procCreate = true) ∨
    FirstListFails build possible o.allocs ∧ Idle s

variable {build possible info} {o : Outcomes Cpu} {s : Module Cpu Task}

lemma clientModuleInit_of_no_buffering
    (hb : (bufferingStaticInit build possible o.allocs sizeofPmcsData s.buffers).1 ≠ 0) :
    let b := bufferingStaticInit build possible o.allocs sizeofPmcsData s.buffers
    clientModuleInit build possible info o s = (b.1,{ s with buffers := b.2 }) :=
  if_pos hb

lemma clientModuleInit_of_no_pmu
    (hb : (bufferingStaticInit build possible o.allocs sizeofPmcsData s.buffers).1 = 0)
    (hp : (initPmu info o.reg s.pmu).1 ≠ 0) :
    let b := bufferingStaticInit build possible o.allocs sizeofPmcsData s.buffers
    let p := initPmu info o.reg s.pmu
    clientModuleInit build possible info o s =
      (p.1,{ s with
        buffers := bufferingStaticFini build possible b.2
        shook := finiShook (initShook s.shook).2
        pmu := p.2 }) :=
  (if_neg (not_not.mpr hb)).trans (if_pos hp)

lemma clientModuleInit_of_pmu
    (hb : (bufferingStaticInit build possible o.allocs sizeofPmcsData s.buffers).1 = 0)
    (hp : (initPmu info o.reg s.pmu).1 = 0) :
    let b := bufferingStaticInit build possible o.allocs sizeofPmcsData s.buffers
    let p := initPmu info o.reg s.pmu
    let t := { s with buffers := b.2, shook := (initShook s.shook).2, pmu := p.2 }
    let q := initProc o.procMkdir o.procCreate t
    clientModuleInit build possible info o s =
      if q.1 ≠ 0 then
        (q.1,{ q.2 with
          pmu := finiPmu q.2.pmu
          shook := finiShook q.2.shook
          buffers := bufferingStaticFini build possible q.2.buffers })
      else (0,q.2) :=
  (if_neg (not_not.mpr hb)).trans (if_neg (not_not.mpr hp))

lemma allOrNothing_of_not_registers (hdummy : build.dummy ≠ NULL)
    (hneg : s.pmu.pmiVector = .nmi → o.reg ≤ 0) (hs : HoldsNothing s)
    (hall : AllListsMade build possible o.allocs) (hreg : ¬ Registers s.pmu.pmiVector o.reg) :
    AllOrNothing build possible (clientModuleInit build possible info o s) := by
  obtain ⟨hb,-,hfini⟩ := bufferingStaticInit_made sizeofPmcsData hdummy hall hs.lists
  have hinit := initPmu_inits info o.reg s.pmu
  obtain ⟨hnmi,hfast⟩ := hinit.unregistered hreg
  rw [clientModuleInit_of_no_pmu hb (mt (initPmu_eq_zero_iff info o.reg s.pmu).mp hreg)]
  refine .inr ⟨initPmu_neg info o.reg s.pmu hreg hneg,?_,?_⟩
  · exact ⟨hfini,hnmi.trans hs.nmiHandler,hfast.trans hs.fastIrq,hs.procDir,hs.procProcesses⟩
  · exact ⟨rfl,rfl,rfl,rfl,hinit.disabled hreg⟩

/-- The lists are made and the handler is registered: what remains is up to the proc entries. -/
lemma allOrNothing_iff_of_registers (hdummy : build.dummy ≠ NULL) (hs : HoldsNothing s)
    (hall : AllListsMade build possible o.allocs) (hreg : Registers s.pmu.pmiVector o.reg) :
    AllOrNothing build possible (clientModuleInit build possible info o s) ↔
      o.procMkdir = true ∧ o.procCreate = true := by
  obtain ⟨hb,hplace,-⟩ :=
    bufferingStaticInit_made sizeofPmcsData hdummy hall hs.lists
  have hinit := initPmu_inits info o.reg s.pmu
  rw [clientModuleInit_of_pmu hb ((initPmu_eq_zero_iff info o.reg s.pmu).mpr hreg)]
  cases hm : o.procMkdir with
  | false =>
    -- `init_proc` jumps to its exit with `err` still zero
    refine ⟨fun h => ?_,fun h => absurd h.1 Bool.false_ne_true⟩
    rcases h with ⟨-,hloaded⟩ | ⟨hlt,-⟩
    · exact absurd (hs.procDir.symm.trans hloaded.procDir) Bool.false_ne_true
    · exact absurd hlt (lt_irrefl 0)
  | true =>
    cases hc : o.procCreate with
    | false =>
      refine ⟨fun h => ?_,fun h => absurd h.2 Bool.false_ne_true⟩
      -- `register_proc_processes` gives one, and `init_proc` hands it on
      rcases h with ⟨hzero,-⟩ | ⟨hlt,-⟩
      · exact absurd (show (1 : ℤ) = 0 from hzero) (by decide)
      · exact absurd (show (1 : ℤ) < 0 from hlt) (by decide)
    | true =>
      exact iff_of_true
        (.inl ⟨rfl,hplace,rfl,rfl,rfl,rfl,hinit.registered hreg,rfl,rfl⟩) ⟨rfl,rfl⟩

/-- The first list of the CPU policy fails: nothing was done, so all is up to what was there. -/
lemma allOrNothing_iff_of_first (hdummy : build.dummy ≠ NULL) (hs : HoldsNothing s)
    (hfirst : FirstListFails build possible o.allocs) :
    AllOrNothing build possible (clientModuleInit build possible info o s) ↔ Idle s := by
  obtain ⟨herr,hlists⟩ := bufferingStaticInit_first sizeofPmcsData hdummy hfirst hs.lists
  rw [clientModuleInit_of_no_buffering (by rw [herr]; decide)]
  constructor
  · rintro (⟨hzero,-⟩ | ⟨-,-,hidle⟩)
    · exact absurd (herr.symm.trans hzero) (by decide)
    · exact ⟨hidle.schedIn,hidle.onAttach,hidle.onDetach,hidle.disabled,hidle.pmcs⟩
  · intro hidle
    refine .inr ⟨herr.trans_lt (by decide),?_,?_⟩
    · exact ⟨hlists,hs.nmiHandler,hs.fastIrq,hs.procDir,hs.procProcesses⟩
    · exact ⟨hidle.schedIn,hidle.onAttach,hidle.onDetach,hidle.disabled,hidle.pmcs⟩

lemma not_allOrNothing_of_leaks (hdummy : build.dummy ≠ NULL) (hs : HoldsNothing s)
    (hall : ¬ AllListsMade build possible o.allocs)
    (hfirst : ¬ FirstListFails build possible o.allocs) :
    ¬ AllOrNothing build possible (clientModuleInit build possible info o s) := by
  obtain ⟨hne,hbad⟩ := bufferingStaticInit_leaks sizeofPmcsData hdummy hall hfirst hs.lists
  rw [clientModuleInit_of_no_buffering hne]
  rintro (⟨hzero,-⟩ | ⟨hlt,hnothing,-⟩)
  · exact hne hzero
  · cases hbad with
    | inl hpos => exact absurd hlt (not_lt.mpr hpos.le)
    | inr hleft => exact hleft hnothing.lists

/-- Failures that end neither way: the list of the SYSTEM policy, the second list of the CPU
policy, `proc_mkdir` and `proc_create`. -/
theorem load_neither :
    let possible : Possible (Fin 2) := ⟨[0,1],by decide⟩
    let p : Pcpu Unit := ⟨0,0,0,0,0,fun _ => 0,0,0,0,[]⟩
    let s : Module (Fin 2) Unit :=
      ⟨Statics.init,⟨.dummy,.dummy,.dummy,.dummy,.dummy,false,false⟩,
        ⟨false,0,1,0,0,2^28-1,.nmi,false,false,fun _ => p⟩,false,false⟩
    let first : ListAllocs (Fin 2) :=
      ⟨none,fun cpu => if cpu = 0 then some ⟨4096,by decide⟩ else none⟩
    let load := fun bufferp procMkdir procCreate =>
      clientModuleInit ⟨bufferp,.nblist,16⟩ possible ⟨7,4,3⟩ ⟨first,0,procMkdir,procCreate⟩ s
    (HoldsNothing s ∧ Idle s) ∧
      ¬ AllOrNothing ⟨.system,.nblist,16⟩ possible (load .system true true) ∧
      ¬ AllOrNothing ⟨.cpu,.nblist,16⟩ possible (load .cpu true true) ∧
      ¬ AllOrNothing ⟨.thread,.nblist,16⟩ possible (load .thread false true) ∧
      ¬ AllOrNothing ⟨.thread,.nblist,16⟩ possible (load .thread true false) := by
  intro possible p s first load
  refine ⟨⟨⟨fun _ => rfl,rfl,rfl,rfl,rfl⟩,rfl,rfl,rfl,rfl,fun _ => rfl⟩,?_,?_,?_,?_⟩
  · rintro (⟨h,-⟩ | ⟨h,-⟩)
    · exact absurd h (by decide)
    · exact absurd h (by decide)
  · rintro (⟨h,-⟩ | ⟨-,h,-⟩)
    · exact absurd h (by decide)
    · exact absurd (h.lists 4096) (by decide)
  · rintro (⟨-,h⟩ | ⟨h,-⟩)
    · exact absurd h.procDir (by decide)
    · exact absurd h (by decide)
  · rintro (⟨h,-⟩ | ⟨h,-⟩)
    · exact absurd h (by decide)
    · exact absurd h (by decide)

variable (build possible info) in
/-- From a state in which the module holds nothing, loading it is all or nothing exactly if its
lists are all made and, where the PMI handler can be registered, its proc entries too, or if the
very first list of the CPU policy fails with the hooks and the counters off. -/
theorem loads_all_or_nothing_iff (hdummy : build.dummy ≠ NULL) (o : Outcomes Cpu)
    {s : Module Cpu Task} (hneg : s.pmu.pmiVector = .nmi → o.reg ≤ 0) (hs : HoldsNothing s) :
    AllOrNothing build possible (clientModuleInit build possible info o s) ↔
      LoadsCleanly build possible o s := by
  unfold LoadsCleanly
  by_cases hall : AllListsMade build possible o.allocs
  · have hfirst : ¬ FirstListFails build possible o.allocs := fun h => by
      have hzero := (bufferingStaticInit_made sizeofPmcsData hdummy hall hs.lists).1
      rw [(bufferingStaticInit_first sizeofPmcsData hdummy h hs.lists).1] at hzero
      exact absurd hzero (by decide)
    by_cases hreg : Registers s.pmu.pmiVector o.reg
    · rw [allOrNothing_iff_of_registers hdummy hs hall hreg]
      simp [hall,hreg,hfirst]
    · exact iff_of_true (allOrNothing_of_not_registers hdummy hneg hs hall hreg)
        (.inl ⟨hall,fun h => absurd h hreg⟩)
  · by_cases hfirst : FirstListFails build possible o.allocs
    · rw [allOrNothing_iff_of_first hdummy hs hfirst]
      simp [hall,hfirst]
    · exact iff_of_false (not_allOrNothing_of_leaks hdummy hs hall hfirst) (by simp [hall,hfirst])

/-- Two CPUs, a list for each, and nothing fails. -/
theorem loads_all_or_nothing_two_cpus :
    let possible : Possible (Fin 2) := ⟨[0,1],by decide⟩
    let p : Pcpu Unit := ⟨0x10000,7,0,0,0,fun _ => 0,0,0,0,[]⟩
    let s : Module (Fin 2) Unit :=
      ⟨Statics.init,⟨.dummy,.dummy,.dummy,.dummy,.dummy,true,true⟩,
        ⟨false,0,1,0,0,2^28-1,.nmi,false,false,fun _ => p⟩,false,false⟩
    let lists : ListAllocs (Fin 2) :=
      ⟨none,fun cpu => if cpu = 0 then some ⟨4096,by decide⟩ else some ⟨8192,by decide⟩⟩
    AllOrNothing ⟨.cpu,.nblist,16⟩ possible
      (clientModuleInit ⟨.cpu,.nblist,16⟩ possible ⟨7,4,3⟩ ⟨lists,0,true,true⟩ s) := by
  intro possible p s lists
  refine (loads_all_or_nothing_iff ⟨.cpu,.nblist,16⟩ possible ⟨7,4,3⟩ (by decide) _ (fun _ => le_rfl)
    ⟨fun _ => rfl,rfl,rfl,rfl,rfl⟩).mpr (.inl ⟨?_,fun _ => ⟨rfl,rfl⟩⟩)
  intro cpu _
  revert cpu
  decide

end Load
end PmuMin.Client
