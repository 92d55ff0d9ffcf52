import PmuMin.Client.Load
import PmuMin.Client.Period
import PmuMin.Client.SampleLists

/-! Loading and unloading the client, any number of times: `client_module_init`, the work of a
session and `client_module_exit`, on a machine that must be as clean after a cycle as before. -/
namespace PmuMin.Client
open Machine Pmu
open Samples (Sound lists_detach clist_detach)

/-- The machine with the module's variables; `rootPdDir` tells whether `root_pd_dir` points to a
directory, be it still there or not. -/
structure Host (Cpu Task : Type) extends Module Cpu Task where
  rootPdDir : Bool

/-- What a session does to the counters and to the blocks: the latter are those of
`register_process` and of the callbacks of a fork and of an exit. -/
inductive Work (Cpu Task : Type)
  | pmu (i : Pmu.Input Cpu Task)
  | register (kmalloc : Option Block)
  | attach (kmalloc : Option Block) (kvmalloc : Option Word)
  | detach (data : Word)

/-- A cycle: how the steps of `client_module_init` end, and the work up to the unloading, if the
module is loaded. -/
structure Cycle (Cpu Task : Type) where
  outcomes : Outcomes Cpu
  work : List (Work Cpu Task)

variable {Cpu Task : Type}

/-- The module's variables as it comes from its file, among them those of each CPU. -/
def insmod (s : Host Cpu Task) : Host Cpu Task :=
  { s with
    buffers := { Statics.init with heap := s.buffers.heap }
    pmu :=
      { boot s.pmu.pmiVector (fun cpu => { s.pmu.pcpu cpu with lvtBkp := 0, pmiCounter := 0 }) with
        nmiHandler := s.pmu.nmiHandler
        fastIrq := s.pmu.fastIrq }
    rootPdDir := false }

def finiProc (s : Host Cpu Task) : Host Cpu Task :=
  if s.rootPdDir then { s with toModule := procRemove s.toModule } else s

section Functions
variable [DecidableEq Cpu] (build : Build) (possible : Possible Cpu) (info : Cpuid10)

/-- `client_module_init`, with the pointer that only `init_proc` sets. -/
def load (o : Outcomes Cpu) (s : Host Cpu Task) : ℤ × Host Cpu Task :=
  let r := clientModuleInit build possible info o s.toModule
  let reached := (bufferingStaticInit build possible o.allocs sizeofPmcsData s.buffers).1 = 0 ∧
    (initPmu info o.reg s.pmu).1 = 0
  (r.1,{ toModule := r.2, rootPdDir := if reached then o.procMkdir else s.rootPdDir })

omit [DecidableEq Cpu] in
def clientModuleExit (s : Host Cpu Task) : Host Cpu Task :=
  let s := finiProc s
  let s := { s with pmu := finiPmu s.pmu }
  let s := { s with shook := finiShook s.shook }
  { s with buffers := bufferingStaticFini build possible s.buffers }

def setHeap (h : Heap) (s : Host Cpu Task) : Host Cpu Task :=
  { s with buffers := { s.buffers with heap := h } }

def work (s : Host Cpu Task) : Work Cpu Task → Host Cpu Task
  | .pmu i => { s with pmu := Pmu.input s.pmu i }
  | .register kmalloc => setHeap ((kmalloc.map s.buffers.heap.kmalloc).getD s.buffers.heap) s
  | .attach kmalloc kvmalloc =>
    setHeap (clientHookOnAttach build kmalloc kvmalloc s.buffers.heap).1 s
  | .detach data => setHeap (clientHookOnDetach build s.buffers.heap data) s

/-- The kernel keeps a module whose initialisation gives zero or a positive number, and calls its
exit function in the end. -/
def cycle (s : Host Cpu Task) (c : Cycle Cpu Task) : Host Cpu Task :=
  let r := load build possible info c.outcomes (insmod s)
  if r.1 < 0 then r.2 else clientModuleExit build possible (c.work.foldl (work build) r.2)

end Functions

section Conditions
variable [DecidableEq Cpu] (build : Build) (possible : Possible Cpu) (info : Cpuid10)

/-- Nothing is left of the client: it holds nothing, its hooks and counters are off, none of its
blocks is allocated, and none of them or of its lists was freed twice. -/
structure Clear (s : Host Cpu Task) : Prop where
  nothing : HoldsNothing s.toModule
  idle : Idle s.toModule
  blocks : ∀ d, s.buffers.heap.procData d = false
  sound : s.buffers.heap.corrupted = false

omit [DecidableEq Cpu] in
/-- What the exit function releases besides memory is there: the directory that `root_pd_dir`
points to, and the PMI handler. -/
structure Releasable (s : Host Cpu Task) : Prop where
  dir : s.rootPdDir = true → s.procDir = true
  handler : s.pmu.registered = true

/-- The cycle leaves the machine clear and releases nothing that is not there. -/
def Good (s : Host Cpu Task) (c : Cycle Cpu Task) : Prop :=
  let r := load build possible info c.outcomes (insmod s)
  (¬ r.1 < 0 → Releasable (c.work.foldl (work build) r.2)) ∧
    Clear (cycle build possible info s c)

/-- The blocks that are allocated after an event of a session. -/
def outstanding (live : Word → Bool) : Work Cpu Task → Word → Bool
  | .register (some b) | .attach (some b) _ => Function.update live b.addr true
  | .detach data => Function.update live data false
  | _ => live

/-- A detach is for a block that is outstanding. -/
def Owed (live : Word → Bool) : Work Cpu Task → Prop
  | .detach data => data = NULL ∨ live data = true
  | _ => True

/-- The lists are made; and if the PMI handler can be registered, the entry under `/proc` can be
made in its directory, if that can, and the session frees every block that it gets, once. Or the
very first list of the CPU policy fails. -/
def Clean (v : PmiVector) (c : Cycle Cpu Task) : Prop :=
  AllListsMade build possible c.outcomes.allocs ∧
      (Registers v c.outcomes.reg →
        (c.outcomes.procMkdir = true → c.outcomes.procCreate = true) ∧
          Admits outstanding Owed (fun _ => false) c.work ∧
          ∀ d, c.work.foldl outstanding (fun _ => false) d = false) ∨
    FirstListFails build possible c.outcomes.allocs

/-- The allocator gives out no address twice, a detach is not for a list, and where it frees
lists, the block that `register_process` leaves uninitialised happens to hold NULL. -/
def WorkAllowed (s : Host Cpu Task) : Work Cpu Task → Prop
  | .pmu _ => True
  | .register kmalloc => ∀ b, kmalloc = some b →
    s.buffers.heap.Free b.addr ∧ (build.freesLists = true → b.word = NULL)
  | .attach kmalloc kvmalloc => ∀ b, kmalloc = some b → s.buffers.heap.Free b.addr ∧
    ∀ list, kvmalloc = some list → s.buffers.heap.Free list ∧ list ≠ b.addr
  | .detach data => s.buffers.heap.lists data = none

/-- What the kernel promises in a cycle; a failed registration of an NMI handler is reported by a
negative errno. -/
structure CycleAllowed (s : Host Cpu Task) (c : Cycle Cpu Task) : Prop where
  reg : s.pmu.pmiVector = .nmi → c.outcomes.reg ≤ 0
  fresh : ∀ cpu ∈ possible.cpus, ∀ cpu' ∈ possible.cpus, ∀ list,
    c.outcomes.allocs.pcpu cpu = some list → c.outcomes.allocs.pcpu cpu' = some list → cpu = cpu'
  work : Admits (work build) (WorkAllowed build)
    (load build possible info c.outcomes (insmod s)).2 c.work

end Conditions

section Pmu
variable (info : Cpuid10) (reg : ℤ) (s : Pmu.State Cpu Task)

/-- The handler that the vector does not use. -/
def OtherHandler (s : Pmu.State Cpu Task) : Prop :=
  match s.pmiVector with
  | .nmi => s.fastIrq = false
  | .irq => s.nmiHandler = false

variable {s} in
lemma otherHandler_initPmu (h : OtherHandler s) : OtherHandler (initPmu info reg s).2 := by
  have hvector := (initPmu_inits info reg s).vector
  unfold OtherHandler at h ⊢
  rw [hvector]
  cases hv : s.pmiVector with
  | nmi =>
    rw [hv] at h
    simp only [initPmu,pmuGlobalInit,pmiInit,getMachineConfiguration_pmiVector,hv,onEachCpu,
      pmiNmiSetup]
    split_ifs <;> simpa [enablePmcsGlobal,onEachCpu,pmcGlobalFini] using h
  | irq =>
    rw [hv] at h
    simp only [initPmu,pmuGlobalInit,pmiInit,getMachineConfiguration_pmiVector,hv,onEachCpu,
      pmiIrqSetup]
    split_ifs <;> simpa [enablePmcsGlobal,onEachCpu,pmcGlobalFini] using h

variable {s} in
/-- `fini_pmu` unregisters the handler of the vector and turns the counters off. -/
lemma finiPmu_idle (h : OtherHandler s) : (finiPmu s).nmiHandler = false ∧
    (finiPmu s).fastIrq = false ∧ ∀ cpu, ((finiPmu s).pcpu cpu).globalCtrl = 0 := by
  unfold OtherHandler at h
  unfold finiPmu pmiFini
  cases hv : s.pmiVector with
  | nmi =>
    rw [hv] at h
    simp only [disablePmcsGlobal,onEachCpu,hv]
    exact ⟨rfl,h,fun _ => rfl⟩
  | irq =>
    rw [hv] at h
    simp only [disablePmcsGlobal,onEachCpu,hv]
    exact ⟨h,rfl,fun _ => rfl⟩

variable [DecidableEq Cpu]

/-- A session registers and unregisters no handler. -/
lemma input_handlers (i : Pmu.Input Cpu Task) :
    (Pmu.input s i).pmiVector = s.pmiVector ∧ (Pmu.input s i).nmiHandler = s.nmiHandler ∧
      (Pmu.input s i).fastIrq = s.fastIrq := by
  have hdeliver : ∀ (t : Pmu.State Cpu Task) e, (deliver t e).pmiVector = t.pmiVector ∧
      (deliver t e).nmiHandler = t.nmiHandler ∧ (deliver t e).fastIrq = t.fastIrq := by
    intro t e
    unfold deliver
    dsimp only
    split_ifs <;> exact ⟨rfl,rfl,rfl⟩
  cases i with
  | event cpu current user =>
    simp only [Pmu.input,event]
    split_ifs
    · exact hdeliver _ _
    · exact ⟨rfl,rfl,rfl⟩
    · exact ⟨rfl,rfl,rfl⟩
  | setPeriod info kstrtoint =>
    simp only [Pmu.input,resetPeriodSet]
    split_ifs <;> exact ⟨getMachineConfiguration_pmiVector info s,
      getMachineConfiguration_nmiHandler info s,getMachineConfiguration_fastIrq info s⟩
  | enable cpu | disable cpu => exact ⟨rfl,rfl,rfl⟩

end Pmu

section Buffers
variable {build : Build} {possible : Possible Cpu}

/-- A list that the buffering layer keeps for the whole session. -/
def StaticList (build : Build) (possible : Possible Cpu) (s : Statics Cpu) (a : Word) : Prop :=
  build.clist ≠ .none ∧ match build.bufferp with
    | .system => a = s.systemClist
    | .cpu => ∃ cpu ∈ possible.cpus, s.pcpuClist cpu = a
    | .none | .thread => False

/-- An address that `fini_clist` may be called for. -/
def Freeable (build : Build) (h : Heap) (clist : Word) : Prop :=
  build.clist ≠ .none → clist = NULL ∨ h.lists clist ≠ none

/-- Each list of the layer may be freed, once. -/
structure ListsFreeable (build : Build) (possible : Possible Cpu) (s : Statics Cpu) : Prop where
  system : build.bufferp = .system → Freeable build s.heap s.systemClist
  cpus : build.bufferp = .cpu → ∀ cpu ∈ possible.cpus, Freeable build s.heap (s.pcpuClist cpu)
  distinct : build.bufferp = .cpu → build.clist ≠ .none → ∀ c ∈ possible.cpus,
    ∀ c' ∈ possible.cpus, s.pcpuClist c = s.pcpuClist c' → s.pcpuClist c ≠ NULL → c = c'

lemma corrupted_finiClist {h : Heap} {clist : Word} (hclist : Freeable build h clist) :
    (finiClist build h clist).corrupted = h.corrupted := by
  unfold Freeable at hclist
  unfold finiClist Heap.kfree
  cases hb : build.clist with
  | none => rfl
  | array | nblist =>
    rw [hb] at hclist
    dsimp only
    split
    · rfl
    · rename_i hne
      have hsome := Option.isSome_iff_ne_none.mpr ((hclist fun h => by cases h).resolve_left hne)
      simp [Heap.allocated,hsome]

lemma Freeable.finiClist {h : Heap} {a clist : Word} (ha : Freeable build h a)
    (hne : build.clist ≠ .none → a ≠ NULL → a ≠ clist) :
    Freeable build (finiClist build h clist) a := by
  intro hc
  refine or_iff_not_imp_left.mpr fun hnull => ?_
  have hold := (ha hc).resolve_left hnull
  have hother := hne hc hnull
  unfold Client.finiClist
  cases hb : build.clist with
  | none => exact hold
  | array | nblist =>
    dsimp only
    rwa [Samples.lists_kfree,if_neg fun h => hother h.2]

/-- The lists of the CPUs are freed one after the other. -/
lemma corrupted_bcpuFini {cpus : List Cpu} (hnodup : cpus.Nodup) {s : Statics Cpu}
    (hfree : ∀ cpu ∈ cpus, Freeable build s.heap (s.pcpuClist cpu))
    (hdistinct : build.clist ≠ .none → ∀ c ∈ cpus, ∀ c' ∈ cpus,
      s.pcpuClist c = s.pcpuClist c' → s.pcpuClist c ≠ NULL → c = c') :
    (cpus.foldl (fun s cpu => { s with heap := finiClist build s.heap (s.pcpuClist cpu) })
      s).heap.corrupted = s.heap.corrupted := by
  induction cpus generalizing s with
  | nil => rfl
  | cons cpu cpus ih =>
    obtain ⟨hnew,hnodup⟩ := List.nodup_cons.mp hnodup
    obtain ⟨hfirst,hrest⟩ := List.forall_mem_cons.mp hfree
    rw [List.foldl_cons,ih hnodup (fun c hc => ?_) fun hb c hc c' hc' => ?_]
    · exact corrupted_finiClist hfirst
    · refine (hrest c hc).finiClist fun hb hnull heq => hnew ?_
      have hsame := hdistinct hb c (List.mem_cons_of_mem _ hc) cpu List.mem_cons_self heq hnull
      exact hsame ▸ hc
    · exact hdistinct hb c (List.mem_cons_of_mem _ hc) c' (List.mem_cons_of_mem _ hc')

lemma ListsFreeable.corrupted {possible : Possible Cpu} {s : Statics Cpu}
    (h : ListsFreeable build possible s) :
    (bufferingStaticFini build possible s).heap.corrupted = s.heap.corrupted := by
  unfold bufferingStaticFini
  cases hb : build.bufferp with
  | none | thread => rfl
  | system => exact corrupted_finiClist (h.system hb)
  | cpu => exact corrupted_bcpuFini possible.nodup (h.cpus hb) (h.distinct hb)

lemma Heap.corrupted_kfree {h : Heap} (hh : h.corrupted = true) (p : Word) :
    (h.kfree p).corrupted = true := by
  unfold kfree
  split
  · exact hh
  · simp [hh]

lemma corrupted_bufferingStaticFini (possible : Possible Cpu) {s : Statics Cpu}
    (hs : s.heap.corrupted = true) :
    (bufferingStaticFini build possible s).heap.corrupted = true := by
  have hfini : ∀ {h : Heap} clist, h.corrupted = true →
      (finiClist build h clist).corrupted = true := by
    intro h clist hh
    unfold finiClist
    cases build.clist with
    | none => exact hh
    | array | nblist => exact Heap.corrupted_kfree hh clist
  unfold bufferingStaticFini
  cases build.bufferp with
  | none | thread => exact hs
  | system => exact hfini _ hs
  | cpu =>
    unfold bcpuStaticFini
    generalize possible.cpus = cpus
    induction cpus generalizing s with
    | nil => exact hs
    | cons cpu cpus ih => exact ih (hfini _ hs)

lemma initClist_frame (kvmalloc : Option Word) (h : Heap) (entry_count entry_size : ℕ) :
    (initClist build kvmalloc h entry_count entry_size).1.procData = h.procData ∧
      (initClist build kvmalloc h entry_count entry_size).1.corrupted = h.corrupted := by
  unfold initClist
  cases build.clist <;> cases kvmalloc <;> exact ⟨rfl,rfl⟩

variable [DecidableEq Cpu]

lemma bcpuAlloc_frame (all : List Cpu) (kvmalloc : Cpu → Kvmalloc) (entry_size : ℕ)
    (cpus : List Cpu) (s : Statics Cpu) :
    (bcpuAlloc build all kvmalloc entry_size cpus s).2.heap.procData = s.heap.procData ∧
      (bcpuAlloc build all kvmalloc entry_size cpus s).2.heap.corrupted = s.heap.corrupted := by
  induction cpus generalizing s with
  | nil => exact ⟨rfl,rfl⟩
  | cons cpu cpus ih =>
    simp only [bcpuAlloc]
    split
    · rename_i hnull
      rw [bcpuAllocFail_eq]
      · exact initClist_frame ..
      · dsimp only
        rw [hnull,Function.update_self]
    · rw [(ih _).1,(ih _).2]
      exact initClist_frame ..

/-- Of all lists only those of the layer are there once it has been initialised. -/
lemma bufferingStaticInit_only (hdummy : build.dummy ≠ NULL) {allocs : ListAllocs Cpu}
    (hall : AllListsMade build possible allocs) {s : Statics Cpu} (hs : NoLists s)
    (entry_size : ℕ) {a : Word} :
    let r := bufferingStaticInit build possible allocs entry_size s
    r.2.heap.lists a ≠ none → a ≠ NULL ∧ StaticList build possible r.2 a := by
  unfold AllListsMade at hall
  unfold bufferingStaticInit StaticList
  cases hb : build.bufferp with
  | none | thread => exact fun ha => absurd (hs a) ha
  | system =>
    rw [hb] at hall
    obtain ⟨hat,-,honly⟩ := initClist_of_made s.heap entry_size hdummy hall
    intro r ha
    cases honly a ha with
    | inl hold => exact absurd (hs a) hold
    | inr hnew => exact ⟨hnew.2.trans_ne hat.1,hnew⟩
  | cpu =>
    rw [hb] at hall
    obtain ⟨hmade,-⟩ := bcpuAlloc_spec hdummy possible.cpus allocs.pcpu possible.cpus
      (MadeFor.of_noLists hs) possible.nodup
    have hgood : possible.cpus.takeWhile (fun cpu => decide (ListMade build (allocs.pcpu cpu))) =
        possible.cpus := List.takeWhile_eq_self_iff.mpr fun cpu hcpu => decide_eq_true (hall cpu hcpu)
    rw [hgood] at hmade
    intro r ha
    obtain ⟨hc,cpu,hcpu,hca⟩ := hmade.only a ha
    exact ⟨hca ▸ (hmade.kept cpu hcpu).1,hc,cpu,hcpu,hca⟩

variable (build possible) in
/-- The layer allocates lists, and frees none but NULL. -/
lemma bufferingStaticInit_frame (allocs : ListAllocs Cpu) (entry_size : ℕ) (s : Statics Cpu) :
    let r := bufferingStaticInit build possible allocs entry_size s
    r.2.heap.procData = s.heap.procData ∧ r.2.heap.corrupted = s.heap.corrupted := by
  unfold bufferingStaticInit
  cases build.bufferp with
  | none | thread => exact ⟨rfl,rfl⟩
  | system => exact initClist_frame ..
  | cpu => exact bcpuAlloc_frame ..

omit [DecidableEq Cpu] in
/-- The finaliser frees the lists of the layer. -/
lemma lists_bufferingStaticFini {s : Statics Cpu} {a : Word}
    (ha : (bufferingStaticFini build possible s).heap.lists a ≠ none) :
    s.heap.lists a ≠ none ∧ (a ≠ NULL → ¬ StaticList build possible s a) := by
  unfold bufferingStaticFini at ha
  unfold StaticList
  cases hb : build.bufferp with
  | none | thread =>
    rw [hb] at ha
    exact ⟨ha,fun _ hstatic => hstatic.2⟩
  | system =>
    rw [hb] at ha
    obtain ⟨hold,hne⟩ := lists_finiClist ha
    refine ⟨hold,fun hnull hstatic => ?_⟩
    obtain ⟨hc,heq⟩ := hstatic
    exact hne hc (heq ▸ hnull) heq
  | cpu =>
    rw [hb] at ha
    obtain ⟨hold,hne⟩ := lists_bcpuFini possible.cpus ha
    refine ⟨hold,fun hnull hstatic => ?_⟩
    obtain ⟨hc,cpu,hcpu,heq⟩ := hstatic
    exact hne hc cpu hcpu (heq ▸ hnull) heq.symm

variable (possible) in
omit [DecidableEq Cpu] in
lemma procData_bufferingStaticFini (s : Statics Cpu) (d : Word) :
    ((bufferingStaticFini build possible s).heap.procData d = true → s.heap.procData d = true) ∧
      (¬ StaticList build possible s d →
        (bufferingStaticFini build possible s).heap.procData d = s.heap.procData d) := by
  have hfini : ∀ (h : Heap) clist,
      ((finiClist build h clist).procData d = true → h.procData d = true) ∧
        (build.clist ≠ .none → d ≠ clist → (finiClist build h clist).procData d = h.procData d) ∧
        (build.clist = .none → finiClist build h clist = h) := by
    intro h clist
    unfold finiClist Heap.kfree
    cases build.clist with
    | none => exact ⟨id,fun hc => absurd rfl hc,fun _ => rfl⟩
    | array | nblist =>
      dsimp only
      split
      · exact ⟨id,fun _ _ => rfl,fun _ => rfl⟩
      · refine ⟨fun hd => ?_,fun _ hne => Function.update_of_ne hne ..,fun hc => by cases hc⟩
        by_cases hne : d = clist
        · rw [hne] at hd
          dsimp only at hd
          rw [Function.update_self] at hd
          exact absurd hd Bool.false_ne_true
        · exact (Function.update_of_ne hne ..).symm.trans hd
  unfold StaticList bufferingStaticFini
  cases hb : build.bufferp with
  | none | thread => exact ⟨id,fun _ => rfl⟩
  | system =>
    obtain ⟨hback,hother,hnone⟩ := hfini s.heap s.systemClist
    refine ⟨hback,fun hstatic => ?_⟩
    by_cases hc : build.clist = .none
    · simp only [bsystemStaticFini]
      rw [hnone hc]
    · exact hother hc fun heq => hstatic ⟨hc,heq⟩
  | cpu =>
    unfold bcpuStaticFini
    dsimp only
    generalize possible.cpus = cpus
    induction cpus generalizing s with
    | nil => exact ⟨id,fun _ => rfl⟩
    | cons cpu cpus ih =>
      obtain ⟨hback,hother,hnone⟩ := hfini s.heap (s.pcpuClist cpu)
      obtain ⟨ihback,ihother⟩ := ih { s with heap := finiClist build s.heap (s.pcpuClist cpu) }
      rw [List.foldl_cons]
      refine ⟨fun hd => hback (ihback hd),fun hstatic => ?_⟩
      rw [ihother fun hrest => ?_]
      · by_cases hc : build.clist = .none
        · dsimp only
          rw [hnone hc]
        · exact hother hc fun heq => hstatic ⟨hc,cpu,List.mem_cons_self,heq.symm⟩
      · obtain ⟨hc,c,hmem,heq⟩ := hrest
        exact hstatic ⟨hc,c,List.mem_cons_of_mem _ hmem,heq⟩

end Buffers

section Session
variable {build : Build} {possible : Possible Cpu} {info : Cpuid10}

/-- A loaded client: it holds the lists of the buffering layer and those of its blocks, its handler
and its directory, and nothing else. -/
structure Held (build : Build) (possible : Possible Cpu) (s : Host Cpu Task) : Prop where
  sound : Sound build s.buffers.heap
  null : s.buffers.heap.lists NULL = none
  statics : ListsFreeable build possible s.buffers
  owned : ∀ a, s.buffers.heap.lists a ≠ none → StaticList build possible s.buffers a ∨
    build.freesLists = true ∧ ∃ d, s.buffers.heap.procData d = true ∧ s.buffers.heap.clist d = a
  registered : s.pmu.registered = true
  other : OtherHandler s.pmu
  dir : s.procDir = s.rootPdDir
  entry : s.procProcesses = true → s.procDir = true

/-- What the work of a session leaves alone. -/
structure SameModule (s t : Host Cpu Task) : Prop where
  systemClist : t.buffers.systemClist = s.buffers.systemClist
  pcpuClist : t.buffers.pcpuClist = s.buffers.pcpuClist
  vector : t.pmu.pmiVector = s.pmu.pmiVector
  nmiHandler : t.pmu.nmiHandler = s.pmu.nmiHandler
  fastIrq : t.pmu.fastIrq = s.pmu.fastIrq
  procDir : t.procDir = s.procDir
  procProcesses : t.procProcesses = s.procProcesses
  rootPdDir : t.rootPdDir = s.rootPdDir

/-- A loaded client stays one, if the heap is sound, loses no list of the layer and has no list
that belongs to nobody. -/
lemma Held.of_heap {s t : Host Cpu Task} (h : Held build possible s) (hsame : SameModule s t)
    (hsound : Sound build t.buffers.heap) (hnull : t.buffers.heap.lists NULL = none)
    (hkept : ∀ a, StaticList build possible s.buffers a → s.buffers.heap.lists a ≠ none →
      t.buffers.heap.lists a ≠ none)
    (howned : ∀ a, t.buffers.heap.lists a ≠ none → StaticList build possible s.buffers a ∨
      build.freesLists = true ∧
        ∃ d, t.buffers.heap.procData d = true ∧ t.buffers.heap.clist d = a) :
    Held build possible t := by
  have hstatic : ∀ a, StaticList build possible t.buffers a ↔
      StaticList build possible s.buffers a := by
    intro a
    unfold StaticList
    rw [hsame.systemClist,hsame.pcpuClist]
  refine ⟨hsound,hnull,⟨fun hb hc => ?_,fun hb cpu hcpu hc => ?_,?_⟩,fun a ha => ?_,?_,?_,?_,?_⟩
  · rw [hsame.systemClist]
    refine (h.statics.system hb hc).imp_right (hkept _ ⟨hc,?_⟩)
    rw [hb]
  · rw [hsame.pcpuClist]
    refine (h.statics.cpus hb cpu hcpu hc).imp_right (hkept _ ⟨hc,?_⟩)
    rw [hb]
    exact ⟨cpu,hcpu,rfl⟩
  · rw [hsame.pcpuClist]
    exact h.statics.distinct
  · exact (howned a ha).imp_left (hstatic a).mpr
  · have hregistered := h.registered
    unfold State.registered at hregistered ⊢
    rw [hsame.vector,hsame.nmiHandler,hsame.fastIrq]
    exact hregistered
  · have hother := h.other
    unfold OtherHandler at hother ⊢
    rw [hsame.vector,hsame.nmiHandler,hsame.fastIrq]
    exact hother
  · rw [hsame.procDir,hsame.rootPdDir]
    exact h.dir
  · rw [hsame.procProcesses,hsame.procDir]
    exact h.entry

lemma not_static_of_frees (hf : build.freesLists = true) (s : Statics Cpu) (a : Word) :
    ¬ StaticList build possible s a := by
  obtain ⟨bufferp,clist,dummy⟩ := build
  unfold StaticList
  cases bufferp with
  | none | thread => exact fun hstatic => hstatic.2
  | system | cpu => cases hf

variable [DecidableEq Cpu] {s : Host Cpu Task}

omit [DecidableEq Cpu] in
lemma sameModule_setHeap (h : Heap) (s : Host Cpu Task) : SameModule s (setHeap h s) :=
  ⟨rfl,rfl,rfl,rfl,rfl,rfl,rfl,rfl⟩

omit [DecidableEq Cpu] in
lemma Held.alloc (h : Held build possible s) {b : Block} (hb : s.buffers.heap.Free b.addr)
    {w : Word} {stored : Word → Bool} {lists : Word → Option Clist}
    (hlists : lists = s.buffers.heap.lists ∨ build.freesLists = true ∧ s.buffers.heap.Free w ∧
      ∃ v, lists = Function.update s.buffers.heap.lists w (some v))
    (hsound : Sound build ⟨Function.update s.buffers.heap.procData b.addr true,
      Function.update s.buffers.heap.clist b.addr w,stored,lists,s.buffers.heap.corrupted⟩) :
    Held build possible (setHeap ⟨Function.update s.buffers.heap.procData b.addr true,
      Function.update s.buffers.heap.clist b.addr w,stored,lists,s.buffers.heap.corrupted⟩ s) := by
  have hold : ∀ a, s.buffers.heap.lists a ≠ none → StaticList build possible s.buffers a ∨
      build.freesLists = true ∧ ∃ d,
        Function.update s.buffers.heap.procData b.addr true d = true ∧
          Function.update s.buffers.heap.clist b.addr w d = a := by
    intro a ha
    refine (h.owned a ha).imp_right fun hown => ⟨hown.1,?_⟩
    obtain ⟨-,d,hd,hda⟩ := hown
    have hne : d ≠ b.addr := fun heq => by
      rw [heq,(h.sound.intact.free hb).1] at hd
      exact Bool.false_ne_true hd
    exact ⟨d,(Function.update_of_ne hne ..).trans hd,(Function.update_of_ne hne ..).trans hda⟩
  rcases hlists with rfl | ⟨hf,hw,v,rfl⟩
  · exact h.of_heap (sameModule_setHeap _ s) hsound h.null (fun _ _ ha => ha) hold
  · refine h.of_heap (sameModule_setHeap _ s) hsound ?_ (fun a _ ha => ?_) fun a ha => ?_
    · exact (Function.update_of_ne hw.1.symm ..).trans h.null
    · have hne : a ≠ w := fun heq => ha (heq ▸ (h.sound.intact.free hw).2)
      exact (Function.update_of_ne hne ..).trans_ne ha
    · by_cases hne : a = w
      · refine .inr ⟨hf,b.addr,Function.update_self ..,?_⟩
        rw [hne]
        exact Function.update_self ..
      · exact hold a ((Function.update_of_ne hne ..).symm.trans_ne ha)

omit [DecidableEq Cpu] in
lemma procData_detach (h : Sound build s.buffers.heap) {data : Word}
    (hdata : s.buffers.heap.procData data = true) :
    (clientHookOnDetach build s.buffers.heap data).procData =
      Function.update s.buffers.heap.procData data false := by
  have hnull := h.intact.ne_null hdata
  funext a
  by_cases ha : a = NULL
  · rw [ha,(h.detach hdata).intact.null,Function.update_of_ne hnull.symm,h.intact.null]
  · apply Bool.eq_iff_iff.mpr
    rw [procData_clientHookOnDetach build _ hnull ha]
    by_cases hne : a = data
    · rw [hne,Function.update_self]
      exact iff_of_false (fun hall => hall.2.2 rfl) Bool.false_ne_true
    · rw [Function.update_of_ne hne]
      refine ⟨fun hall => hall.1,fun hlive => ⟨hlive,fun hf heq => ?_,hne⟩⟩
      -- what the detach frees besides the block is a list
      have hlist := h.points hf data hdata (heq ▸ ha)
      rw [← heq] at hlist
      exact Bool.false_ne_true ((h.intact.not_block hlist).symm.trans hlive)

omit [DecidableEq Cpu] in
lemma Held.detach (h : Held build possible s) {data : Word}
    (hdata : s.buffers.heap.procData data = true) :
    Held build possible (setHeap (clientHookOnDetach build s.buffers.heap data) s) := by
  have hnull := h.sound.intact.ne_null hdata
  have hgone : ∀ a, (clientHookOnDetach build s.buffers.heap data).lists a ≠ none →
      s.buffers.heap.lists a ≠ none ∧ (build.freesLists = true → s.buffers.heap.clist data ≠ a) := by
    intro a ha
    rw [lists_detach hnull] at ha
    split_ifs at ha with hfreed
    · exact absurd rfl ha
    · refine ⟨ha,fun hf heq => hfreed (.inr ⟨hf,fun hzero => ha ?_,heq.symm⟩)⟩
      rw [← heq,hzero]
      exact h.null
  refine h.of_heap (sameModule_setHeap _ s) (h.sound.detach hdata) ?_ (fun a hstatic ha => ?_)
    fun a ha => ?_
  · by_contra hne
    exact (hgone NULL hne).1 h.null
  · refine (lists_detach hnull a).trans_ne ?_
    rw [if_neg]
    · exact ha
    · rintro (heq | ⟨hf,-,-⟩)
      · rw [← heq,h.sound.intact.not_block ha] at hdata
        exact Bool.false_ne_true hdata
      · exact not_static_of_frees hf s.buffers a hstatic
  · obtain ⟨hold,hne⟩ := hgone a ha
    refine (h.owned a hold).imp_right fun hown => ⟨hown.1,?_⟩
    obtain ⟨hf,d,hd,hda⟩ := hown
    have hother : d ≠ data := fun heq => hne hf (heq ▸ hda)
    refine ⟨d,?_,(congrFun (clist_detach data) d).trans hda⟩
    change (clientHookOnDetach build s.buffers.heap data).procData d = true
    rw [procData_detach h.sound hdata,Function.update_of_ne hother]
    exact hd

/-- A step of the work, with the allocator and the detaches in order. -/
lemma Held.work (h : Held build possible s) {w : Work Cpu Task} (hw : WorkAllowed build s w)
    (howed : Owed s.buffers.heap.procData w) :
    Held build possible (work build s w) ∧
      (work build s w).buffers.heap.procData = outstanding s.buffers.heap.procData w := by
  have hsame : Held build possible (setHeap s.buffers.heap s) := h
  cases w with
  | pmu i =>
    obtain ⟨hvector,hnmi,hfast⟩ := input_handlers s.pmu i
    exact ⟨h.of_heap ⟨rfl,rfl,hvector,hnmi,hfast,rfl,rfl,rfl⟩ h.sound h.null (fun _ _ ha => ha)
      h.owned,rfl⟩
  | register kmalloc =>
    cases kmalloc with
    | none => exact ⟨hsame,rfl⟩
    | some b =>
      obtain ⟨hb,hword⟩ := hw b rfl
      exact ⟨h.alloc hb (.inl rfl) (h.sound.register hb hword),rfl⟩
  | attach kmalloc kvmalloc =>
    cases kmalloc with
    | none => exact ⟨hsame,rfl⟩
    | some b =>
      obtain ⟨hb,hlist⟩ := hw b rfl
      have hsound := h.sound.attach hb hlist
      obtain ⟨w,lists,heq,hcases⟩ := Samples.attach_heap build s.buffers.heap b kvmalloc
      simp only [Client.work]
      rw [heq] at hsound ⊢
      refine ⟨h.alloc hb ?_ hsound,rfl⟩
      rcases hcases with ⟨-,hlists⟩ | ⟨-,-,-,hlists⟩ | ⟨hf,hsome,hlists⟩
      · exact .inl hlists
      · exact .inl hlists
      · exact .inr ⟨hf,(hlist w hsome).1,_,hlists⟩
  | detach data =>
    cases howed with
    | inl hnull =>
      have hkeep : clientHookOnDetach build s.buffers.heap data = s.buffers.heap := if_pos hnull
      simp only [Client.work]
      rw [hkeep]
      refine ⟨hsame,?_⟩
      rw [outstanding,hnull]
      exact (Function.update_eq_self_iff.mpr h.sound.intact.null.symm).symm
    | inr hdata => exact ⟨h.detach hdata,procData_detach h.sound hdata⟩

/-- A detach that is not owed is of an address where nothing is allocated. -/
lemma corrupted_of_not_owed {w : Work Cpu Task} (hw : WorkAllowed build s w)
    (howed : ¬ Owed s.buffers.heap.procData w) :
    (Client.work build s w).buffers.heap.corrupted = true := by
  cases w with
  | detach data =>
    obtain ⟨hnull,hdead⟩ := not_or.mp howed
    have hgone : ∀ {h : Heap} p, h.procData data = false → h.lists data = none →
        (h.kfree p).procData data = false ∧ (h.kfree p).lists data = none := by
      intro h p hproc hlists
      refine ⟨?_,?_⟩
      · exact Bool.eq_false_of_not_eq_true fun hlive =>
          Bool.false_ne_true (hproc.symm.trans ((h.procData_kfree hnull p).mp hlive).1)
      · rw [Samples.lists_kfree,hlists,ite_self]
    have hfini : (bufferingDynamicFini build s.buffers.heap
        (s.buffers.heap.clist data)).allocated data = false := by
      have hboth : (bufferingDynamicFini build s.buffers.heap
          (s.buffers.heap.clist data)).procData data = false ∧
            (bufferingDynamicFini build s.buffers.heap
              (s.buffers.heap.clist data)).lists data = none := by
        rw [bufferingDynamicFini_eq]
        split
        · exact hgone _ (Bool.eq_false_of_not_eq_true hdead) hw
        · exact ⟨Bool.eq_false_of_not_eq_true hdead,hw⟩
      rw [Heap.allocated,hboth.1,hboth.2]
      rfl
    simp only [Client.work,setHeap,clientHookOnDetach,if_neg hnull]
    simp only [Heap.kfree,if_neg hnull,hfini,Bool.not_false,Bool.or_true]
  | pmu i | register kmalloc | attach kmalloc kvmalloc => exact absurd trivial howed

lemma corrupted_work (hs : s.buffers.heap.corrupted = true) (w : Work Cpu Task) :
    (Client.work build s w).buffers.heap.corrupted = true := by
  cases w with
  | pmu i => exact hs
  | register kmalloc => cases kmalloc <;> exact hs
  | attach kmalloc kvmalloc =>
    cases kmalloc with
    | none => exact hs
    | some b =>
      obtain ⟨w,lists,heq,-⟩ := Samples.attach_heap build s.buffers.heap b kvmalloc
      simp only [Client.work,setHeap,heq]
      exact hs
  | detach data =>
    simp only [Client.work,setHeap,clientHookOnDetach,bufferingDynamicFini_eq]
    split_ifs
    · exact hs
    · exact Heap.corrupted_kfree (Heap.corrupted_kfree hs _) _
    · exact Heap.corrupted_kfree hs _

/-- A whole session: either all its detaches were owed, or it has corrupted the heap. -/
lemma Held.foldl_work {ws : List (Work Cpu Task)} (h : Held build possible s)
    (hws : Admits (Client.work build) (WorkAllowed build) s ws) :
    Admits outstanding Owed s.buffers.heap.procData ws ∧
        Held build possible (ws.foldl (Client.work build) s) ∧
        (ws.foldl (Client.work build) s).buffers.heap.procData =
          ws.foldl outstanding s.buffers.heap.procData ∨
      ¬ Admits outstanding Owed s.buffers.heap.procData ws ∧
        (ws.foldl (Client.work build) s).buffers.heap.corrupted = true := by
  induction ws generalizing s with
  | nil => exact .inl ⟨trivial,h,rfl⟩
  | cons w ws ih =>
    by_cases howed : Owed s.buffers.heap.procData w
    · obtain ⟨hnext,hlive⟩ := h.work hws.1 howed
      rw [List.foldl_cons,List.foldl_cons,Admits,and_iff_right howed,← hlive]
      exact ih hnext hws.2
    · refine .inr ⟨fun hadmits => howed hadmits.1,?_⟩
      have hcorrupted := corrupted_of_not_owed hws.1 howed
      clear ih hws
      rw [List.foldl_cons]
      generalize Client.work build s w = t at hcorrupted
      induction ws generalizing t with
      | nil => exact hcorrupted
      | cons w ws ih => exact ih _ (corrupted_work hcorrupted w)

end Session

section Ends
variable [DecidableEq Cpu] {build : Build} {possible : Possible Cpu} {info : Cpuid10}
  {s : Host Cpu Task} {o : Outcomes Cpu}

omit [DecidableEq Cpu] in
lemma noLists_insmod (h : Clear s) : NoLists (insmod s).buffers := h.nothing.lists

variable (info) in
/-- The lists are made and the handler is registered: the client is loaded, with its directory if
that could be made, unless the entry could not. -/
lemma load_of_registers (hdummy : build.dummy ≠ NULL)
    (hall : AllListsMade build possible o.allocs) (hreg : Registers s.pmu.pmiVector o.reg)
    (h : Clear s) :
    let b := bufferingStaticInit build possible o.allocs sizeofPmcsData (insmod s).buffers
    let r := load build possible info o (insmod s)
    (r.2.rootPdDir = o.procMkdir) ∧
      ((o.procMkdir = true → o.procCreate = true) → r.1 = 0 ∧ r.2.buffers = b.2 ∧
        r.2.pmu = (initPmu info o.reg (insmod s).pmu).2 ∧ r.2.procDir = o.procMkdir ∧
        r.2.procProcesses = o.procMkdir) ∧
      (o.procMkdir = true → o.procCreate = false → r.1 = 1 ∧ r.2.procDir = false) := by
  have hb := (bufferingStaticInit_made sizeofPmcsData hdummy hall (noLists_insmod h)).1
  have hp : (initPmu info o.reg (insmod s).pmu).1 = 0 :=
    (initPmu_eq_zero_iff info o.reg (insmod s).pmu).mpr hreg
  have hroot : (load build possible info o (insmod s)).2.rootPdDir = o.procMkdir :=
    if_pos ⟨hb,hp⟩
  refine ⟨hroot,fun hproc => ?_,fun hmkdir hcreate => ?_⟩
  · simp only [load]
    rw [clientModuleInit_of_pmu hb hp]
    cases hm : o.procMkdir with
    | false => exact ⟨rfl,rfl,rfl,h.nothing.procDir,h.nothing.procProcesses⟩
    | true =>
      rw [hproc hm]
      exact ⟨rfl,rfl,rfl,rfl,rfl⟩
  · simp only [load]
    rw [clientModuleInit_of_pmu hb hp,hmkdir,hcreate]
    exact ⟨rfl,rfl⟩

lemma pcpuClist_inj (hb : build.bufferp = .cpu) (hc : build.clist ≠ .none) {buffers : Statics Cpu}
    (hzero : (bufferingStaticInit build possible o.allocs sizeofPmcsData buffers).1 = 0)
    (hfresh : ∀ cpu ∈ possible.cpus, ∀ cpu' ∈ possible.cpus, ∀ list,
      o.allocs.pcpu cpu = some list → o.allocs.pcpu cpu' = some list → cpu = cpu') :
    let b := (bufferingStaticInit build possible o.allocs sizeofPmcsData buffers).2
    ∀ c ∈ possible.cpus, ∀ c' ∈ possible.cpus, b.pcpuClist c = b.pcpuClist c' → c = c' := by
  intro b c hmem c' hmem' heq
  have hloop : bufferingStaticInit build possible o.allocs sizeofPmcsData buffers =
      bcpuAlloc build possible.cpus o.allocs.pcpu sizeofPmcsData possible.cpus buffers := by
    rw [bufferingStaticInit,hb]
    rfl
  simp only [b,hloop] at hzero heq
  obtain ⟨-,-,-,hmine,-⟩ := Samples.bcpuAlloc_addresses hc possible.cpus o.allocs.pcpu sizeofPmcsData
    possible.nodup hzero
  obtain ⟨list,hlist,haddr⟩ := Option.map_eq_some_iff.mp (hmine c hmem).1
  obtain ⟨list',hlist',haddr'⟩ := Option.map_eq_some_iff.mp (hmine c' hmem').1
  have hsame : list = list' := Subtype.ext (haddr.trans (heq.trans haddr'.symm))
  exact hfresh c hmem c' hmem' list hlist (hsame ▸ hlist')

lemma listsFreeable_init (hdummy : build.dummy ≠ NULL)
    (hall : AllListsMade build possible o.allocs)
    (hfresh : ∀ cpu ∈ possible.cpus, ∀ cpu' ∈ possible.cpus, ∀ list,
      o.allocs.pcpu cpu = some list → o.allocs.pcpu cpu' = some list → cpu = cpu')
    {buffers : Statics Cpu} (hnone : NoLists buffers) :
    ListsFreeable build possible
      (bufferingStaticInit build possible o.allocs sizeofPmcsData buffers).2 := by
  obtain ⟨hzero,hplace,-⟩ := bufferingStaticInit_made sizeofPmcsData hdummy hall hnone
  have hfreeable : ∀ {h : Heap} {a}, ListAt build sizeofPmcsData h a → Freeable build h a :=
    fun ha hc => .inr ((ha.2 hc).trans_ne (Option.some_ne_none _))
  unfold ListsInPlace at hplace
  refine ⟨fun hb => ?_,fun hb cpu hcpu => ?_,fun hb hc c hmem c' hmem' heq _ => ?_⟩
  · rw [hb] at hplace
    exact hfreeable hplace
  · rw [hb] at hplace
    exact hfreeable (hplace cpu hcpu)
  · exact pcpuClist_inj hb hc hzero hfresh c hmem c' hmem' heq

omit [DecidableEq Cpu] in
lemma otherHandler_insmod (h : Clear s) : OtherHandler (insmod s).pmu := by
  have hnmi : (insmod s).pmu.nmiHandler = false := h.nothing.nmiHandler
  have hfast : (insmod s).pmu.fastIrq = false := h.nothing.fastIrq
  unfold OtherHandler
  cases (insmod s).pmu.pmiVector with
  | nmi => exact hfast
  | irq => exact hnmi

variable (info) in
lemma held_load (hdummy : build.dummy ≠ NULL) (hall : AllListsMade build possible o.allocs)
    (hreg : Registers s.pmu.pmiVector o.reg) (hproc : o.procMkdir = true → o.procCreate = true)
    (hfresh : ∀ cpu ∈ possible.cpus, ∀ cpu' ∈ possible.cpus, ∀ list,
      o.allocs.pcpu cpu = some list → o.allocs.pcpu cpu' = some list → cpu = cpu')
    (h : Clear s) :
    Held build possible (load build possible info o (insmod s)).2 ∧
      (load build possible info o (insmod s)).2.buffers.heap.procData = fun _ => false := by
  obtain ⟨hroot,hok,-⟩ := load_of_registers info hdummy hall hreg h
  obtain ⟨-,hbuffers,hpmu,hdir,hentry⟩ := hok hproc
  revert hroot hbuffers hpmu hdir hentry
  generalize (load build possible info o (insmod s)).2 = t
  intro hroot hbuffers hpmu hdir hentry
  have hfree := listsFreeable_init hdummy hall hfresh (noLists_insmod h)
  have honly : ∀ a, t.buffers.heap.lists a ≠ none →
      a ≠ NULL ∧ StaticList build possible t.buffers a := by
    intro a
    rw [hbuffers]
    exact bufferingStaticInit_only hdummy hall (noLists_insmod h) sizeofPmcsData
  obtain ⟨hproc,hcorr⟩ := bufferingStaticInit_frame build possible o.allocs sizeofPmcsData
    (insmod s).buffers
  rw [← hbuffers] at hfree hproc hcorr
  have hblocks : t.buffers.heap.procData = fun _ => false := hproc.trans (funext h.blocks)
  have hdead : ∀ d, ¬ t.buffers.heap.procData d = true := fun d => by simp [hblocks]
  refine ⟨⟨⟨⟨hcorr.trans h.sound,congrFun hblocks NULL,fun d hd => absurd hd (hdead d)⟩,
    fun _ d hd => absurd hd (hdead d),fun _ d _ hd => absurd hd (hdead d)⟩,?_,hfree,fun a ha => ?_,
    ?_,?_,?_,?_⟩,hblocks⟩
  · by_contra hne
    exact (honly NULL hne).1 rfl
  · exact .inl (honly a ha).2
  · rw [hpmu]
    exact (initPmu_inits info o.reg (insmod s).pmu).registered hreg
  · rw [hpmu]
    exact otherHandler_initPmu info o.reg (otherHandler_insmod h)
  · rw [hdir,hroot]
  · rw [hentry,hdir]
    exact id

omit [DecidableEq Cpu] in
/-- The exit function gives back all that a loaded client holds, unless a block is left. -/
lemma clear_exit_iff (h : Held build possible s) : Releasable s ∧
    (Clear (clientModuleExit build possible s) ↔ ∀ d, s.buffers.heap.procData d = false) := by
  have hbuffers : (clientModuleExit build possible s).buffers =
      bufferingStaticFini build possible s.buffers := by
    simp only [clientModuleExit,finiProc]
    split <;> rfl
  have hpmu : (clientModuleExit build possible s).pmu = finiPmu s.pmu := by
    simp only [clientModuleExit,finiProc]
    split <;> rfl
  have hshook : (clientModuleExit build possible s).shook = finiShook s.shook := by
    simp only [clientModuleExit,finiProc]
    split <;> rfl
  have hproc : (clientModuleExit build possible s).procDir = false ∧
      (clientModuleExit build possible s).procProcesses = false := by
    simp only [clientModuleExit,finiProc]
    split
    · exact ⟨rfl,rfl⟩
    · rename_i hroot
      have hdir : s.procDir = false := h.dir.trans (Bool.eq_false_of_not_eq_true hroot)
      refine ⟨hdir,Bool.eq_false_of_not_eq_true fun hentry => ?_⟩
      exact Bool.false_ne_true (hdir.symm.trans (h.entry hentry))
  obtain ⟨hnmi,hfast,hpmcs⟩ := finiPmu_idle h.other
  refine ⟨⟨fun hroot => h.dir.trans hroot,h.registered⟩,fun hclear d => ?_,
    fun hblocks => ⟨⟨fun a => ?_,?_,?_,hproc.1,hproc.2⟩,?_,fun d => ?_,?_⟩⟩
  · -- a live block is no list of the layer, so that it outlives the exit function
    by_contra hd
    have hlive := Bool.eq_true_of_not_eq_false hd
    have hstatic : ¬ StaticList build possible s.buffers d := by
      intro hstatic
      have hlists : d = NULL ∨ s.buffers.heap.lists d ≠ none := by
        obtain ⟨hc,hwhich⟩ := hstatic
        cases hb : build.bufferp with
        | none | thread =>
          rw [hb] at hwhich
          exact hwhich.elim
        | system =>
          rw [hb] at hwhich
          rw [hwhich]
          exact h.statics.system hb hc
        | cpu =>
          rw [hb] at hwhich
          obtain ⟨cpu,hcpu,rfl⟩ := hwhich
          exact h.statics.cpus hb cpu hcpu hc
      cases hlists with
      | inl hnull => exact h.sound.intact.ne_null hlive hnull
      | inr hlist => exact Bool.false_ne_true ((h.sound.intact.not_block hlist).symm.trans hlive)
    have hleft := hclear.blocks d
    rw [hbuffers,(procData_bufferingStaticFini possible s.buffers d).2 hstatic] at hleft
    exact Bool.false_ne_true (hleft.symm.trans hlive)
  · rw [hbuffers]
    by_contra ha
    obtain ⟨hold,hstatic⟩ := lists_bufferingStaticFini ha
    have hnull : a ≠ NULL := fun heq => hold (heq ▸ h.null)
    cases h.owned a hold with
    | inl hmine => exact hstatic hnull hmine
    | inr howned =>
      obtain ⟨-,d,hd,-⟩ := howned
      exact Bool.false_ne_true ((hblocks d).symm.trans hd)
  · rw [hpmu]
    exact hnmi
  · rw [hpmu]
    exact hfast
  · rw [← hpmu] at hpmcs
    exact ⟨congrArg Shook.hookSchedIn hshook,congrArg Shook.hookOnAttach hshook,
      congrArg Shook.hookOnDetach hshook,congrArg Shook.shookEnabled hshook,hpmcs⟩
  · rw [hbuffers]
    by_contra hd
    have hold := (procData_bufferingStaticFini possible s.buffers d).1
      (Bool.eq_true_of_not_eq_false hd)
    exact Bool.false_ne_true ((hblocks d).symm.trans hold)
  · rw [hbuffers,h.statics.corrupted]
    exact h.sound.intact.sound

omit [DecidableEq Cpu] in
lemma not_clear_exit (hs : s.buffers.heap.corrupted = true) :
    ¬ Clear (clientModuleExit build possible s) := by
  have hbuffers : (clientModuleExit build possible s).buffers =
      bufferingStaticFini build possible s.buffers := by
    simp only [clientModuleExit,finiProc]
    split <;> rfl
  intro hclear
  have hsound := hclear.sound
  rw [hbuffers,corrupted_bufferingStaticFini possible hs] at hsound
  exact Bool.false_ne_true hsound.symm

variable (build s) in
/-- The work of a session leaves the handlers and the directory alone. -/
lemma sameModule_work (w : Work Cpu Task) : SameModule s (work build s w) := by
  cases w with
  | pmu i =>
    obtain ⟨hvector,hnmi,hfast⟩ := input_handlers s.pmu i
    exact ⟨rfl,rfl,hvector,hnmi,hfast,rfl,rfl,rfl⟩
  | register kmalloc | attach kmalloc kvmalloc | detach data => exact sameModule_setHeap _ s

variable (build s) in
lemma sameModule_foldl (ws : List (Work Cpu Task)) : SameModule s (ws.foldl (work build) s) := by
  induction ws generalizing s with
  | nil => exact ⟨rfl,rfl,rfl,rfl,rfl,rfl,rfl,rfl⟩
  | cons w ws ih =>
    have hfirst := sameModule_work build s w
    have hrest := ih (work build s w)
    exact ⟨hrest.systemClist.trans hfirst.systemClist,hrest.pcpuClist.trans hfirst.pcpuClist,
      hrest.vector.trans hfirst.vector,hrest.nmiHandler.trans hfirst.nmiHandler,
      hrest.fastIrq.trans hfirst.fastIrq,hrest.procDir.trans hfirst.procDir,
      hrest.procProcesses.trans hfirst.procProcesses,hrest.rootPdDir.trans hfirst.rootPdDir⟩

variable {c : Cycle Cpu Task}

variable (info) in
/-- The first list of the CPU policy fails, or the handler cannot be registered: the module is not
loaded, and nothing is left of it. -/
lemma clear_of_refused (hdummy : build.dummy ≠ NULL) (h : Clear s)
    (hreg : s.pmu.pmiVector = .nmi → o.reg ≤ 0)
    (hfresh : ∀ cpu ∈ possible.cpus, ∀ cpu' ∈ possible.cpus, ∀ list,
      o.allocs.pcpu cpu = some list → o.allocs.pcpu cpu' = some list → cpu = cpu')
    (hrefused : FirstListFails build possible o.allocs ∨
      AllListsMade build possible o.allocs ∧ ¬ Registers s.pmu.pmiVector o.reg) :
    let r := load build possible info o (insmod s)
    r.1 < 0 ∧ Clear r.2 ∧ r.2.pmu.pmiVector = s.pmu.pmiVector := by
  have hnone := noLists_insmod h
  obtain ⟨hproc,hcorr⟩ := bufferingStaticInit_frame build possible o.allocs sizeofPmcsData
    (insmod s).buffers
  have hsound : (insmod s).buffers.heap.corrupted = false := h.sound
  cases hrefused with
  | inl hfirst =>
    obtain ⟨herr,hlists⟩ := bufferingStaticInit_first sizeofPmcsData hdummy hfirst hnone
    have hload : clientModuleInit build possible info o (insmod s).toModule = _ :=
      clientModuleInit_of_no_buffering (herr.trans_ne (by decide))
    simp only [load]
    rw [hload]
    refine ⟨herr.trans_lt (by decide),⟨?_,?_,fun d => ?_,hcorr.trans hsound⟩,rfl⟩
    · exact ⟨hlists,h.nothing.nmiHandler,h.nothing.fastIrq,h.nothing.procDir,
        h.nothing.procProcesses⟩
    · exact ⟨h.idle.schedIn,h.idle.onAttach,h.idle.onDetach,h.idle.disabled,h.idle.pmcs⟩
    · exact (congrFun hproc d).trans (h.blocks d)
  | inr hall =>
    obtain ⟨hall,hnot⟩ := hall
    obtain ⟨hzero,-,hfini⟩ := bufferingStaticInit_made sizeofPmcsData hdummy hall hnone
    have hneg := initPmu_neg info o.reg (insmod s).pmu hnot hreg
    have hinit := initPmu_inits info o.reg (insmod s).pmu
    obtain ⟨hnmi,hfast⟩ := hinit.unregistered hnot
    have hload : clientModuleInit build possible info o (insmod s).toModule = _ :=
      clientModuleInit_of_no_pmu hzero hneg.ne
    simp only [load]
    rw [hload]
    refine ⟨hneg,⟨?_,?_,fun d => ?_,?_⟩,hinit.vector⟩
    · exact ⟨hfini,hnmi.trans h.nothing.nmiHandler,hfast.trans h.nothing.fastIrq,
        h.nothing.procDir,h.nothing.procProcesses⟩
    · exact ⟨rfl,rfl,rfl,rfl,hinit.disabled hnot⟩
    · by_contra hd
      have hold := (procData_bufferingStaticFini possible _ d).1
        (Bool.eq_true_of_not_eq_false hd)
      rw [hproc] at hold
      exact Bool.false_ne_true ((h.blocks d).symm.trans hold)
    · exact ((listsFreeable_init hdummy hall hfresh hnone).corrupted.trans hcorr).trans hsound

/-- A list fails, but not the first one of the CPU policy: lists are left behind, or the kernel
keeps a module that has no PMI handler. -/
lemma not_good_of_leaks (hdummy : build.dummy ≠ NULL) (h : Clear s)
    (hall : ¬ AllListsMade build possible c.outcomes.allocs)
    (hfirst : ¬ FirstListFails build possible c.outcomes.allocs) :
    ¬ Good build possible info s c := by
  obtain ⟨hne,hbad⟩ := bufferingStaticInit_leaks sizeofPmcsData hdummy hall hfirst
    (noLists_insmod h)
  have hload : clientModuleInit build possible info c.outcomes (insmod s).toModule = _ :=
    clientModuleInit_of_no_buffering hne
  have hfst : (load build possible info c.outcomes (insmod s)).1 =
      (bufferingStaticInit build possible c.outcomes.allocs sizeofPmcsData (insmod s).buffers).1 := by
    simp only [load]
    rw [hload]
  rintro ⟨hrelease,hclear⟩
  by_cases hneg : (load build possible info c.outcomes (insmod s)).1 < 0
  · rw [hfst] at hneg
    have hleft := hbad.resolve_left (not_lt.mpr hneg.le)
    apply hleft
    rw [← hfst] at hneg
    simp only [cycle,if_pos hneg] at hclear
    simp only [load,hload] at hclear
    exact hclear.nothing.lists
  · have hhandler := (hrelease hneg).handler
    have hsame := sameModule_foldl build
      (load build possible info c.outcomes (insmod s)).2 c.work
    unfold State.registered at hhandler
    rw [hsame.nmiHandler,hsame.fastIrq] at hhandler
    simp only [load,hload] at hhandler
    split at hhandler
    · exact Bool.false_ne_true (h.nothing.nmiHandler.symm.trans hhandler)
    · exact Bool.false_ne_true (h.nothing.fastIrq.symm.trans hhandler)

/-- A session ends well if it has freed its blocks, once. -/
lemma good_iff_of_loaded (hdummy : build.dummy ≠ NULL) (h : Clear s)
    (hc : CycleAllowed build possible info s c)
    (hall : AllListsMade build possible c.outcomes.allocs)
    (hreg : Registers s.pmu.pmiVector c.outcomes.reg)
    (hproc : c.outcomes.procMkdir = true → c.outcomes.procCreate = true) :
    (Good build possible info s c ↔ Admits outstanding Owed (fun _ => false) c.work ∧
        ∀ d, c.work.foldl outstanding (fun _ => false) d = false) ∧
      (cycle build possible info s c).pmu.pmiVector = s.pmu.pmiVector := by
  obtain ⟨-,hok,-⟩ := load_of_registers info hdummy hall hreg h
  obtain ⟨hzero,-,hpmu,-⟩ := hok hproc
  obtain ⟨hheld,hnone⟩ := held_load info hdummy hall hreg hproc hc.fresh h
  have hnot : ¬ (load build possible info c.outcomes (insmod s)).1 < 0 := by
    rw [hzero]
    decide
  have hcycle : cycle build possible info s c = clientModuleExit build possible
      (c.work.foldl (work build) (load build possible info c.outcomes (insmod s)).2) := if_neg hnot
  constructor
  · rw [Good,hcycle,← hnone]
    rcases hheld.foldl_work hc.work with ⟨howed,hend,hblocks⟩ | ⟨howed,hcorrupted⟩
    · obtain ⟨hrelease,hclear⟩ := clear_exit_iff hend
      rw [hclear,hblocks,and_iff_right howed]
      exact and_iff_right fun _ => hrelease
    · exact iff_of_false (fun hgood => not_clear_exit hcorrupted hgood.2) fun h => howed h.1
  · have hvector : ∀ t : Pmu.State Cpu Task, (finiPmu t).pmiVector = t.pmiVector := by
      intro t
      unfold finiPmu pmiFini
      cases hv : t.pmiVector <;> simp only [disablePmcsGlobal,onEachCpu,hv] <;> rfl
    have hexit : ∀ t : Host Cpu Task,
        (clientModuleExit build possible t).pmu.pmiVector = t.pmu.pmiVector := by
      intro t
      simp only [clientModuleExit,finiProc]
      split <;> exact hvector t.pmu
    rw [hcycle,hexit,(sameModule_foldl build _ c.work).vector,hpmu]
    exact (initPmu_inits info c.outcomes.reg (insmod s).pmu).vector

/-- What a cycle leaves of a clear machine. -/
theorem good_iff (hdummy : build.dummy ≠ NULL) (h : Clear s)
    (hc : CycleAllowed build possible info s c) :
    (Good build possible info s c ↔ Clean build possible s.pmu.pmiVector c) ∧
      (Clean build possible s.pmu.pmiVector c →
        (cycle build possible info s c).pmu.pmiVector = s.pmu.pmiVector) := by
  have hrefused : ∀ hrefused : FirstListFails build possible c.outcomes.allocs ∨
      AllListsMade build possible c.outcomes.allocs ∧ ¬ Registers s.pmu.pmiVector c.outcomes.reg,
      Good build possible info s c ∧
        (cycle build possible info s c).pmu.pmiVector = s.pmu.pmiVector := by
    intro hrefused
    obtain ⟨hneg,hclear,hvector⟩ := clear_of_refused info hdummy h hc.reg hc.fresh hrefused
    have hcycle : cycle build possible info s c =
        (load build possible info c.outcomes (insmod s)).2 := if_pos hneg
    rw [Good,hcycle]
    exact ⟨⟨fun hnot => absurd hneg hnot,hclear⟩,hvector⟩
  by_cases hfirst : FirstListFails build possible c.outcomes.allocs
  · obtain ⟨hgood,hvector⟩ := hrefused (.inl hfirst)
    exact ⟨iff_of_true hgood (.inr hfirst),fun _ => hvector⟩
  · by_cases hall : AllListsMade build possible c.outcomes.allocs
    · by_cases hreg : Registers s.pmu.pmiVector c.outcomes.reg
      · have hclean : Clean build possible s.pmu.pmiVector c ↔
            (c.outcomes.procMkdir = true → c.outcomes.procCreate = true) ∧
              Admits outstanding Owed (fun _ => false) c.work ∧
                ∀ d, c.work.foldl outstanding (fun _ => false) d = false := by
          unfold Clean
          rw [or_iff_left hfirst,and_iff_right hall,imp_iff_right hreg]
        rw [hclean]
        by_cases hproc : c.outcomes.procMkdir = true → c.outcomes.procCreate = true
        · obtain ⟨hgood,hvector⟩ := good_iff_of_loaded hdummy h hc hall hreg hproc
          rw [and_iff_right hproc]
          exact ⟨hgood,fun _ => hvector⟩
        · obtain ⟨hmkdir,hcreate⟩ := Classical.not_imp.mp hproc
          refine ⟨iff_of_false (fun hgood => ?_) fun h => hproc h.1,fun h => absurd h.1 hproc⟩
          -- the directory is removed twice
          obtain ⟨hroot,-,hfail⟩ := load_of_registers info hdummy hall hreg h
          obtain ⟨hone,hdir⟩ := hfail hmkdir (Bool.eq_false_of_not_eq_true hcreate)
          have hsame := sameModule_foldl build
            (load build possible info c.outcomes (insmod s)).2 c.work
          have hthere := (hgood.1 (by rw [hone]; decide)).dir
            ((hsame.rootPdDir.trans hroot).trans hmkdir)
          exact Bool.false_ne_true ((hsame.procDir.trans hdir).symm.trans hthere)
      · obtain ⟨hgood,hvector⟩ := hrefused (.inr ⟨hall,hreg⟩)
        exact ⟨iff_of_true hgood (.inl ⟨hall,fun h => absurd h hreg⟩),fun _ => hvector⟩
    · refine ⟨iff_of_false (not_good_of_leaks hdummy h hall hfirst) fun hclean => ?_,
        fun hclean => ?_⟩
      · exact hclean.elim (fun h => hall h.1) hfirst
      · exact (hclean.elim (fun h => hall h.1) hfirst).elim

variable (build possible info) in
/-- The client can be loaded and unloaded any number of times without leaving anything behind, and
without releasing anything twice, exactly if in every cycle all its lists are made, the entry
under `/proc` can be made if its directory can, and every block that a session gets is freed once
before the unloading and nothing else is; or the handler cannot be registered, or the first list of the CPU policy fails. -/
theorem reloads_clean_iff (hdummy : build.dummy ≠ NULL) {s : Host Cpu Task} (h : Clear s)
    {cycles : List (Cycle Cpu Task)}
    (hallowed : Admits (cycle build possible info) (CycleAllowed build possible info) s cycles) :
    Admits (cycle build possible info) (Good build possible info) s cycles ↔
      ∀ c ∈ cycles, Clean build possible s.pmu.pmiVector c := by
  rw [← admits_const_iff (P := Clean build possible s.pmu.pmiVector)]
  refine admits_iff_admits (W := CycleAllowed build possible info)
    (I := fun t => Clear t ∧ t.pmu.pmiVector = s.pmu.pmiVector) ?_ ?_ ⟨h,rfl⟩ hallowed
  · rintro t c ⟨ht,hv⟩ hc
    rw [← hv]
    exact (good_iff hdummy ht hc).1
  · rintro t c ⟨ht,hv⟩ hc hclean
    rw [← hv] at hclean ⊢
    exact ⟨((good_iff hdummy ht hc).1.mpr hclean).2,(good_iff hdummy ht hc).2 hclean⟩

/-- Two cycles on one CPU; in each a task is forked and exits. -/
theorem reloads_clean_twice :
    let p : Pcpu Unit := ⟨0,0,0,0,0,fun _ => 0,0,0,0,[]⟩
    let build : Build := ⟨.cpu,.nblist,16⟩
    let possible : Possible Unit := ⟨[()],by decide⟩
    let shook := finiShook ⟨.dummy,.dummy,.dummy,.dummy,.dummy,false,false⟩
    let s : Host Unit Unit := ⟨⟨Statics.init,shook,boot .irq fun _ => p,false,false⟩,false⟩
    let c : Cycle Unit Unit :=
      ⟨⟨⟨none,fun _ => some ⟨4096,by decide⟩⟩,RECODE_PMI.toNat,true,true⟩,
        [.attach (some ⟨8,0⟩) none,.detach 8]⟩
    Admits (cycle build possible ⟨7,4,3⟩) (Good build possible ⟨7,4,3⟩) s [c,c] := by
  intro p build possible shook s c
  have hclear : Clear s :=
    ⟨⟨fun _ => rfl,rfl,rfl,rfl,rfl⟩,⟨rfl,rfl,rfl,rfl,fun _ => rfl⟩,fun _ => rfl,rfl⟩
  have hallowed : ∀ t : Host Unit Unit, t.pmu.pmiVector = .irq →
      (load build possible ⟨7,4,3⟩ c.outcomes (insmod t)).2.buffers.heap.Free 8 →
      (load build possible ⟨7,4,3⟩ c.outcomes (insmod t)).2.buffers.heap.lists 8 = none →
      CycleAllowed build possible ⟨7,4,3⟩ t c := by
    intro t hv hfree hlists
    refine ⟨fun hnmi => ?_,fun _ _ _ _ _ _ _ => rfl,?_,hlists,trivial⟩
    · rw [hv] at hnmi
      cases hnmi
    · intro b hb
      obtain rfl := Option.some.inj hb
      exact ⟨hfree,fun list hlist => by cases hlist⟩
  have hclean : Clean build possible .irq c := by
    refine .inl ⟨fun _ _ => .inr rfl,fun _ => ⟨fun _ => rfl,⟨trivial,.inr rfl,trivial⟩,fun d => ?_⟩⟩
    change Function.update (Function.update (fun _ => false) (8 : Word) true) 8 false d = false
    rw [Function.update_idem,Function.update_eq_self_iff.mpr rfl]
  have hrun : Admits (cycle build possible ⟨7,4,3⟩) (CycleAllowed build possible ⟨7,4,3⟩) s [c,c] :=
    ⟨hallowed s rfl (by decide) (by decide),hallowed _ rfl (by decide) (by decide),trivial⟩
  exact (reloads_clean_iff build possible ⟨7,4,3⟩ (by decide) hclear hrun).mpr
    (List.forall_mem_cons.mpr ⟨hclean,List.forall_mem_singleton.mpr hclean⟩)

end Ends
end PmuMin.Client
