import PmuMin.Client.Heap
import Mathlib.Data.List.TakeWhile

/-! The lists that the buffering policies keep for the whole run of the client: one for the system
(`bsystem.c`), one for each CPU (`bcpu.c`), none otherwise. -/
namespace PmuMin.Client

def GLOBAL_BUFFER_SIZE : ℕ := PAGE_SIZE * 256

/-- What `kvmalloc` gives: NULL, or the address of a block. -/
abbrev Kvmalloc := Option {a : Word // a ≠ NULL}

/-- The possible CPUs, in the order in which `for_each_possible_cpu` visits them. -/
structure Possible (Cpu : Type) where
  cpus : List Cpu
  nodup : cpus.Nodup

/-- The static variables of the buffering layer, over the heap. -/
structure Statics (Cpu : Type) where
  heap : Heap
  systemClist : Word
  removing : Bool
  pcpuClist : Cpu → Word

/-- The outcomes of the allocations that `buffering_static_init` may make. -/
structure ListAllocs (Cpu : Type) where
  system : Kvmalloc
  pcpu : Cpu → Kvmalloc

variable {Cpu : Type}

def Statics.init : Statics Cpu := ⟨Heap.empty,NULL,false,fun _ => NULL⟩

section Functions
variable (build : Build)

def bsystemStaticInit (kvmalloc : Kvmalloc) (entry_size : ℕ) (s : Statics Cpu) :
    ℤ × Statics Cpu :=
  let r := initClist build (kvmalloc.map Subtype.val) s.heap (GLOBAL_BUFFER_SIZE / entry_size)
    entry_size
  (if r.2 = NULL then 1 else 0,{ s with heap := r.1, systemClist := r.2 })

/-- The wait for `usage` is over when the list is freed. -/
def bsystemStaticFini (s : Statics Cpu) : Statics Cpu :=
  { s with removing := true, heap := finiClist build s.heap s.systemClist }

variable [DecidableEq Cpu]

/-- The loop at `alloc_fail`: it visits the CPUs before the failing one and frees the list of the
failing one each time. -/
def bcpuAllocFail (cpu : Cpu) : List Cpu → Statics Cpu → Statics Cpu
  | [],s => s
  | rcpu :: rcpus,s =>
    if rcpu = cpu then s
    else bcpuAllocFail cpu rcpus { s with heap := finiClist build s.heap (s.pcpuClist cpu) }

/-- The allocation loop, with the CPUs still to visit. -/
def bcpuAlloc (possible : List Cpu) (kvmalloc : Cpu → Kvmalloc) (entry_size : ℕ) :
    List Cpu → Statics Cpu → ℤ × Statics Cpu
  | [],s => (0,s)
  | cpu :: cpus,s =>
    let r := initClist build ((kvmalloc cpu).map Subtype.val) s.heap
      (GLOBAL_BUFFER_SIZE / entry_size) entry_size
    let s := { s with heap := r.1, pcpuClist := Function.update s.pcpuClist cpu r.2 }
    if r.2 = NULL then (-ENOMEM,bcpuAllocFail build cpu possible s)
    else bcpuAlloc possible kvmalloc entry_size cpus s

def bcpuStaticInit (possible : Possible Cpu) (kvmalloc : Cpu → Kvmalloc) (entry_size : ℕ)
    (s : Statics Cpu) : ℤ × Statics Cpu :=
  bcpuAlloc build possible.cpus kvmalloc entry_size possible.cpus s

omit [DecidableEq Cpu] in
def bcpuStaticFini (possible : Possible Cpu) (s : Statics Cpu) : Statics Cpu :=
  possible.cpus.foldl
    (fun s cpu => { s with heap := finiClist build s.heap (s.pcpuClist cpu) }) s

def bufferingStaticInit (possible : Possible Cpu) (allocs : ListAllocs Cpu) (entry_size : ℕ)
    (s : Statics Cpu) : ℤ × Statics Cpu :=
  match build.bufferp with
  | .system => bsystemStaticInit build allocs.system entry_size s
  | .cpu => bcpuStaticInit build possible allocs.pcpu entry_size s
  | .none | .thread => (0,s)

omit [DecidableEq Cpu] in
def bufferingStaticFini (possible : Possible Cpu) (s : Statics Cpu) : Statics Cpu :=
  match build.bufferp with
  | .system => bsystemStaticFini build s
  | .cpu => bcpuStaticFini build possible s
  | .none | .thread => s

end Functions

section Specs
variable (build : Build)

/-- An `init_clist` with this outcome gives a list. -/
def ListMade (kvmalloc : Kvmalloc) : Prop := build.clist = .none ∨ kvmalloc.isSome = true

instance (kvmalloc : Kvmalloc) : Decidable (ListMade build kvmalloc) :=
  inferInstanceAs (Decidable (_ ∨ _))

/-- A list of the buffering layer, allocated with the sizes it is to have. -/
def ListAt (entry_size : ℕ) (h : Heap) (clist : Word) : Prop :=
  clist ≠ NULL ∧ (build.clist ≠ .none →
    h.lists clist = some ⟨GLOBAL_BUFFER_SIZE / entry_size,entry_size⟩)

/-- The lists that the policy keeps are there. -/
def ListsInPlace (possible : Possible Cpu) (entry_size : ℕ) (s : Statics Cpu) : Prop :=
  match build.bufferp with
  | .system => ListAt build entry_size s.heap s.systemClist
  | .cpu => ∀ cpu ∈ possible.cpus, ListAt build entry_size s.heap (s.pcpuClist cpu)
  | .none | .thread => True

/-- No list is allocated. -/
def NoLists (s : Statics Cpu) : Prop := ∀ a, s.heap.lists a = none

/-- Each allocation that the policy makes gives a list. -/
def AllListsMade (possible : Possible Cpu) (allocs : ListAllocs Cpu) : Prop :=
  match build.bufferp with
  | .system => ListMade build allocs.system
  | .cpu => ∀ cpu ∈ possible.cpus, ListMade build (allocs.pcpu cpu)
  | .none | .thread => True

/-- The very first allocation of the CPU policy fails. -/
def FirstListFails (possible : Possible Cpu) (allocs : ListAllocs Cpu) : Prop :=
  build.bufferp = .cpu ∧ ∃ cpu ∈ possible.cpus.head?, ¬ ListMade build (allocs.pcpu cpu)

variable {build}
variable {h : Heap} {n entry_size : ℕ}

variable (h entry_size) in
lemma initClist_of_made (hdummy : build.dummy ≠ NULL) {kvmalloc : Kvmalloc}
    (hmade : ListMade build kvmalloc) :
    let r := initClist build (kvmalloc.map Subtype.val) h (GLOBAL_BUFFER_SIZE / entry_size)
      entry_size
    ListAt build entry_size r.1 r.2 ∧
      (∀ a, ListAt build entry_size h a → ListAt build entry_size r.1 a) ∧
      ∀ a, r.1.lists a ≠ none → h.lists a ≠ none ∨ build.clist ≠ .none ∧ a = r.2 := by
  obtain ⟨bufferp,clist,dummy⟩ := build
  cases clist with
  | none => exact ⟨⟨hdummy,fun hne => absurd rfl hne⟩,fun _ ha => ha,fun _ ha => .inl ha⟩
  | array | nblist =>
    rcases hmade with hnone | hsome
    · cases hnone
    · obtain ⟨⟨list,hlist⟩,rfl⟩ := Option.isSome_iff_exists.mp hsome
      refine ⟨⟨hlist,fun _ => Function.update_self ..⟩,fun a ha => ⟨ha.1,fun hne => ?_⟩,
        fun a ha => ?_⟩
      · by_cases hal : a = list
        · subst hal
          exact Function.update_self ..
        · exact (Function.update_of_ne hal ..).trans (ha.2 hne)
      · by_cases hal : a = list
        · exact .inr ⟨ClistBuild.noConfusion,hal⟩
        · exact .inl ((Function.update_of_ne hal ..).symm.trans_ne ha)

lemma initClist_of_not_made {kvmalloc : Kvmalloc} (hmade : ¬ ListMade build kvmalloc) :
    initClist build (kvmalloc.map Subtype.val) h n entry_size = (h,NULL) := by
  obtain ⟨bufferp,clist,dummy⟩ := build
  rw [ListMade,not_or] at hmade
  obtain ⟨hclist,hnone⟩ := hmade
  rw [Option.not_isSome_iff_eq_none] at hnone
  subst hnone
  cases clist with
  | none => exact absurd rfl hclist
  | array | nblist => rfl

lemma finiClist_null : finiClist build h NULL = h := by
  obtain ⟨bufferp,clist,dummy⟩ := build
  cases clist <;> rfl

lemma lists_finiClist {clist a : Word} (h' : (finiClist build h clist).lists a ≠ none) :
    h.lists a ≠ none ∧ (build.clist ≠ .none → clist ≠ NULL → a ≠ clist) := by
  obtain ⟨bufferp,b,dummy⟩ := build
  cases b with
  | none => exact ⟨h',fun hne => absurd rfl hne⟩
  | array | nblist =>
    simp only [finiClist,Heap.kfree] at h'
    split at h'
    · rename_i hnull
      exact ⟨h',fun _ hne => absurd hnull hne⟩
    · rcases eq_or_ne a clist with rfl | hne
      · simp at h'
      · simp only [Function.update_of_ne hne] at h'
        exact ⟨h',fun _ _ => hne⟩

variable [DecidableEq Cpu]

/-- The allocation loop after it has made the lists of some CPUs: they are there, and no other
list is. -/
structure MadeFor (build : Build) (entry_size : ℕ) (made : List Cpu) (s : Statics Cpu) : Prop where
  kept : ∀ cpu ∈ made, ListAt build entry_size s.heap (s.pcpuClist cpu)
  only : ∀ a, s.heap.lists a ≠ none →
    build.clist ≠ .none ∧ ∃ cpu ∈ made, s.pcpuClist cpu = a

omit [DecidableEq Cpu] in
lemma MadeFor.noLists {s : Statics Cpu} (h : MadeFor build entry_size [] s) : NoLists s := by
  intro a
  by_contra ha
  obtain ⟨-,cpu,hcpu,-⟩ := h.only a ha
  exact absurd hcpu (List.not_mem_nil)

omit [DecidableEq Cpu] in
lemma MadeFor.of_noLists {s : Statics Cpu} (hs : NoLists s) : MadeFor build entry_size [] s :=
  ⟨fun _ hcpu => absurd hcpu (List.not_mem_nil),fun a ha => absurd (hs a) ha⟩

lemma MadeFor.cons_made {s : Statics Cpu} {made : List Cpu} (h : MadeFor build entry_size made s)
    (hdummy : build.dummy ≠ NULL) {cpu : Cpu} (hnew : cpu ∉ made) {kvmalloc : Kvmalloc}
    (hmade : ListMade build kvmalloc) :
    let r := initClist build (kvmalloc.map Subtype.val) s.heap (GLOBAL_BUFFER_SIZE / entry_size)
      entry_size
    MadeFor build entry_size (made ++ [cpu])
      { s with heap := r.1, pcpuClist := Function.update s.pcpuClist cpu r.2 } := by
  intro r
  obtain ⟨hat,hkeep,honly⟩ := initClist_of_made s.heap entry_size hdummy hmade
  have hne : ∀ c ∈ made, c ≠ cpu := fun c hc => ne_of_mem_of_not_mem hc hnew
  refine ⟨fun c hc => ?_,fun a ha => ?_⟩
  · rcases List.mem_append.mp hc with hc | hc
    · simp only [Function.update_of_ne (hne c hc)]
      exact hkeep _ (h.kept c hc)
    · rw [List.mem_singleton.mp hc]
      simp only [Function.update_self]
      exact hat
  · rcases honly a ha with hold | ⟨hclist,rfl⟩
    · obtain ⟨hclist,c,hc,hca⟩ := h.only a hold
      exact ⟨hclist,c,List.mem_append_left _ hc,(Function.update_of_ne (hne c hc) ..).trans hca⟩
    · exact ⟨hclist,cpu,by simp,Function.update_self ..⟩

lemma MadeFor.failed {s : Statics Cpu} {made : List Cpu} (h : MadeFor build entry_size made s)
    {cpu : Cpu} (hnew : cpu ∉ made) :
    MadeFor build entry_size made { s with pcpuClist := Function.update s.pcpuClist cpu NULL } := by
  have hne : ∀ c ∈ made, c ≠ cpu := fun c hc => ne_of_mem_of_not_mem hc hnew
  refine ⟨fun c hc => ?_,fun a ha => ?_⟩
  · simp only [Function.update_of_ne (hne c hc)]
    exact h.kept c hc
  · obtain ⟨hclist,c,hc,hca⟩ := h.only a ha
    exact ⟨hclist,c,hc,(Function.update_of_ne (hne c hc) ..).trans hca⟩

/-- The arguments of `fini_clist` in the loop at `alloc_fail`. -/
def bcpuFreed (cpu : Cpu) : List Cpu → Statics Cpu → List Word
  | [],_ => []
  | rcpu :: rcpus,s => if rcpu = cpu then [] else s.pcpuClist cpu :: bcpuFreed cpu rcpus s

/-- It takes the list of the failing CPU, once for each CPU that has one. -/
lemma bcpuFreed_eq (cpu : Cpu) (rcpus : List Cpu) (s : Statics Cpu) :
    bcpuFreed cpu rcpus s = (rcpus.takeWhile (· ≠ cpu)).map fun _ => s.pcpuClist cpu := by
  induction rcpus with
  | nil => rfl
  | cons rcpu rcpus ih =>
    rw [bcpuFreed]
    split
    · rename_i hcpu
      rw [List.takeWhile_cons_of_neg (by simpa using hcpu),List.map_nil]
    · rename_i hcpu
      rw [List.takeWhile_cons_of_pos (by simpa using hcpu),List.map_cons,ih]

/-- The loop frees these lists and does nothing else. -/
lemma bcpuAllocFail_eq_foldl (build : Build) (cpu : Cpu) (rcpus : List Cpu) (s : Statics Cpu) :
    bcpuAllocFail build cpu rcpus s =
      { s with heap := (bcpuFreed cpu rcpus s).foldl (finiClist build) s.heap } := by
  induction rcpus generalizing s with
  | nil => rfl
  | cons rcpu rcpus ih =>
    rw [bcpuAllocFail,bcpuFreed]
    split
    · rfl
    · rw [ih,bcpuFreed_eq,bcpuFreed_eq]
      rfl

/-- The list of the failing CPU is NULL, so the rollback frees nothing. -/
lemma bcpuAllocFail_eq {cpu : Cpu} (rcpus : List Cpu) {s : Statics Cpu}
    (hnull : s.pcpuClist cpu = NULL) : bcpuAllocFail build cpu rcpus s = s := by
  rw [bcpuAllocFail_eq_foldl,bcpuFreed_eq,hnull,List.foldl_map]
  have hheap : ∀ l : List Cpu, l.foldl (fun h _ => finiClist build h NULL) s.heap = s.heap :=
    List.foldl_fixed' fun _ => finiClist_null ..
  rw [hheap]

/-- The loop makes the lists of the CPUs before the first failure, and they stay. -/
theorem bcpuAlloc_spec (hdummy : build.dummy ≠ NULL) (possible : List Cpu)
    (kvmalloc : Cpu → Kvmalloc) (cpus : List Cpu) {made : List Cpu} {s : Statics Cpu}
    (h : MadeFor build entry_size made s) (hnodup : (made ++ cpus).Nodup) :
    let good := cpus.takeWhile fun cpu => ListMade build (kvmalloc cpu)
    let r := bcpuAlloc build possible kvmalloc entry_size cpus s
    MadeFor build entry_size (made ++ good) r.2 ∧ r.1 = if good = cpus then 0 else -ENOMEM := by
  induction cpus generalizing made s with
  | nil => simpa [bcpuAlloc] using h
  | cons cpu cpus ih =>
    have hnew : cpu ∉ made := fun hmem =>
      (List.nodup_append.mp hnodup).2.2 cpu hmem cpu List.mem_cons_self rfl
    by_cases hmade : ListMade build (kvmalloc cpu)
    · have hnull := (initClist_of_made s.heap entry_size hdummy hmade).1.1
      have hnext := h.cons_made hdummy hnew hmade
      obtain ⟨hkept,hret⟩ := ih hnext (by rwa [List.append_assoc])
      simp only [bcpuAlloc]
      rw [if_neg hnull,List.takeWhile_cons_of_pos (by simpa using hmade)]
      rw [List.append_assoc] at hkept
      refine ⟨hkept,hret.trans ?_⟩
      simp only [List.cons.injEq,true_and]
    · simp only [bcpuAlloc]
      rw [List.takeWhile_cons_of_neg (by simpa using hmade),initClist_of_not_made hmade,if_pos rfl,
        bcpuAllocFail_eq _ (Function.update_self ..)]
      simpa using h.failed hnew

omit [DecidableEq Cpu] in
/-- What a whole sweep of `fini_clist` over CPUs leaves. -/
lemma lists_bcpuFini (cpus : List Cpu) {s : Statics Cpu} {a : Word}
    (ha : (cpus.foldl (fun s cpu => { s with heap := finiClist build s.heap (s.pcpuClist cpu) })
      s).heap.lists a ≠ none) :
    s.heap.lists a ≠ none ∧
      (build.clist ≠ .none → ∀ cpu ∈ cpus, s.pcpuClist cpu ≠ NULL → a ≠ s.pcpuClist cpu) := by
  induction cpus generalizing s with
  | nil => exact ⟨ha,by simp⟩
  | cons cpu cpus ih =>
    obtain ⟨hrest,hfreed⟩ := ih ha
    obtain ⟨hold,hcpu⟩ := lists_finiClist hrest
    refine ⟨hold,fun hclist c hc => ?_⟩
    rcases List.mem_cons.mp hc with rfl | hc
    · exact hcpu hclist
    · exact hfreed hclist c hc

variable (entry_size) in
/-- With all its lists made, the layer is in place, and the finaliser takes everything back. -/
theorem bufferingStaticInit_made (hdummy : build.dummy ≠ NULL) {possible : Possible Cpu}
    {allocs : ListAllocs Cpu} (hall : AllListsMade build possible allocs) {s : Statics Cpu}
    (hs : NoLists s) :
    let r := bufferingStaticInit build possible allocs entry_size s
    r.1 = 0 ∧ ListsInPlace build possible entry_size r.2 ∧
      NoLists (bufferingStaticFini build possible r.2) := by
  unfold AllListsMade at hall
  unfold bufferingStaticInit ListsInPlace bufferingStaticFini
  cases hb : build.bufferp with
  | none | thread => exact ⟨rfl,trivial,hs⟩
  | system =>
    rw [hb] at hall
    obtain ⟨hat,-,honly⟩ := initClist_of_made s.heap entry_size hdummy hall
    refine ⟨if_neg hat.1,hat,fun a => ?_⟩
    by_contra ha
    obtain ⟨hlists,hfreed⟩ := lists_finiClist ha
    rcases honly a hlists with hold | ⟨hclist,rfl⟩
    · exact hold (hs a)
    · exact hfreed hclist hat.1 rfl
  | cpu =>
    rw [hb] at hall
    obtain ⟨hmade,hret⟩ := bcpuAlloc_spec hdummy possible.cpus allocs.pcpu possible.cpus
      (MadeFor.of_noLists hs) possible.nodup
    have hgood : possible.cpus.takeWhile (fun cpu => decide (ListMade build (allocs.pcpu cpu))) =
        possible.cpus := List.takeWhile_eq_self_iff.mpr fun cpu hcpu => decide_eq_true (hall cpu hcpu)
    rw [hgood] at hmade
    refine ⟨hret.trans (if_pos hgood),hmade.kept,fun a => ?_⟩
    by_contra ha
    obtain ⟨hlists,hfreed⟩ := lists_bcpuFini possible.cpus ha
    obtain ⟨hclist,cpu,hcpu,hca⟩ := hmade.only a hlists
    exact hfreed hclist cpu hcpu (hmade.kept cpu hcpu).1 hca.symm

variable (entry_size) in
/-- When the first list of the CPU policy fails, nothing is allocated. -/
theorem bufferingStaticInit_first (hdummy : build.dummy ≠ NULL) {possible : Possible Cpu}
    {allocs : ListAllocs Cpu} (hfirst : FirstListFails build possible allocs) {s : Statics Cpu}
    (hs : NoLists s) :
    let r := bufferingStaticInit build possible allocs entry_size s
    r.1 = -ENOMEM ∧ NoLists r.2 := by
  obtain ⟨hb,cpu,hcpu,hfail⟩ := hfirst
  obtain ⟨cpus,hcpus⟩ := List.head?_eq_some_iff.mp hcpu
  obtain ⟨hmade,hret⟩ := bcpuAlloc_spec hdummy possible.cpus allocs.pcpu possible.cpus
    (MadeFor.of_noLists hs) possible.nodup
  unfold bufferingStaticInit
  rw [hb]
  rw [hcpus,List.takeWhile_cons_of_neg (by simpa using hfail),← hcpus] at hmade hret
  refine ⟨hret.trans (if_neg fun h => ?_),hmade.noLists⟩
  rw [hcpus] at h
  cases h

variable (entry_size) in
/-- Any other failing allocation either gives a positive result or leaves a list behind. -/
theorem bufferingStaticInit_leaks (hdummy : build.dummy ≠ NULL) {possible : Possible Cpu}
    {allocs : ListAllocs Cpu} (hall : ¬ AllListsMade build possible allocs)
    (hfirst : ¬ FirstListFails build possible allocs) {s : Statics Cpu} (hs : NoLists s) :
    let r := bufferingStaticInit build possible allocs entry_size s
    r.1 ≠ 0 ∧ (0 < r.1 ∨ ¬ NoLists r.2) := by
  unfold AllListsMade at hall
  unfold bufferingStaticInit
  cases hb : build.bufferp with
  | none | thread => exact absurd (by rw [hb]; trivial) hall
  | system =>
    rw [hb] at hall
    have hone : (bsystemStaticInit build allocs.system entry_size s).1 = 1 := by
      rw [bsystemStaticInit,initClist_of_not_made hall]
      rfl
    exact ⟨by rw [hone]; decide,.inl (by rw [hone]; decide)⟩
  | cpu =>
    rw [hb] at hall
    simp only [not_forall] at hall
    obtain ⟨bad,hbad,hfail⟩ := hall
    obtain ⟨hmade,hret⟩ := bcpuAlloc_spec hdummy possible.cpus allocs.pcpu possible.cpus
      (MadeFor.of_noLists hs) possible.nodup
    have hgood : possible.cpus.takeWhile (fun cpu => decide (ListMade build (allocs.pcpu cpu))) ≠
        possible.cpus := fun h =>
      hfail (of_decide_eq_true (List.takeWhile_eq_self_iff.mp h bad hbad))
    refine ⟨by rw [bcpuStaticInit,hret,if_neg hgood]; decide,.inr fun hnone => ?_⟩
    obtain ⟨cpu,cpus,hcpus⟩ := List.exists_cons_of_ne_nil (List.ne_nil_of_mem hbad)
    have hfst : ListMade build (allocs.pcpu cpu) := by
      by_contra hnot
      exact hfirst ⟨hb,cpu,by rw [hcpus]; rfl,hnot⟩
    have hat := hmade.kept cpu (by
      rw [hcpus,List.takeWhile_cons_of_pos (by simpa using hfst)]
      exact List.mem_cons_self)
    have hlist := hat.2 fun hclist => hfail (.inl hclist)
    exact Option.some_ne_none _ (hlist.symm.trans (hnone _))

end Specs
end PmuMin.Client
