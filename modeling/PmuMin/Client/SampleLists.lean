import PmuMin.Client.Samples

/-! Whose samples a list holds, under the two policies that give each list one writer at a time: a
list for each CPU, and a list for each task from its attach to its detach. -/
namespace PmuMin.Samples
open Client Machine Pmu SlotBuffer
open NbBoundedList (Memory)

variable {Cpu Task : Type}

/-- The heap is in order; and where a detach frees lists, each block has its own. -/
structure Sound (build : Build) (h : Heap) : Prop where
  intact : h.Intact
  points : build.freesLists = true → ∀ d, h.procData d = true → h.clist d ≠ NULL →
    h.lists (h.clist d) ≠ none
  unique : build.freesLists = true → ∀ d d', h.procData d = true → h.procData d' = true →
    h.clist d = h.clist d' → h.clist d ≠ NULL → d = d'

/-- A PMI samples a live block or none, the parameter stays in its range, the allocator gives out
no address twice and a detach is for a live block. Where a detach frees lists, the block that
`register_process` leaves uninitialised happens to hold NULL. -/
def Allowed (build : Build) (s : State Cpu Task) : Event Cpu Task → Prop
  | .pmi e => e.call.procData = NULL ∨ s.buffers.heap.procData e.call.procData = true
  | .param info kstrtoint => InRange (.param info kstrtoint : Event Cpu Task)
  | .register kmalloc _ => ∀ b, kmalloc = some b →
    s.buffers.heap.Free b.addr ∧ (build.freesLists = true → b.word = NULL)
  | .attach kmalloc _ kvmalloc _ => ∀ b, kmalloc = some b → s.buffers.heap.Free b.addr ∧
    ∀ list, kvmalloc = some list → s.buffers.heap.Free list ∧ list ≠ b.addr
  | .detach data => data = NULL ∨ s.buffers.heap.procData data = true

section Heaps
variable {build : Build} {h : Heap}

/-- A block that points nowhere, or to a list that is allocated with it. -/
lemma Sound.alloc (hs : Sound build h) {b : Block} (hb : h.Free b.addr) {w : Word}
    {lists : Word → Option Client.Clist} (hold : ∀ a, h.lists a ≠ none → lists a ≠ none)
    (hnew : ∀ a, lists a ≠ none → h.lists a ≠ none ∨ a = w ∧ h.Free a ∧ a ≠ b.addr)
    (hw : build.freesLists = true → w ≠ NULL → lists w ≠ none ∧ h.lists w = none)
    (stored : Word → Bool) :
    Sound build ⟨Function.update h.procData b.addr true,Function.update h.clist b.addr w,stored,
      lists,h.corrupted⟩ := by
  have hfree := hs.intact.free hb
  have hlive : ∀ d, Function.update h.procData b.addr true d = true → d ≠ b.addr →
      h.procData d = true := by
    intro d hd hne
    rwa [Function.update_of_ne hne] at hd
  refine ⟨⟨hs.intact.sound,?_,fun a ha => ?_⟩,fun hf d hd hclist => ?_,
    fun hf d d' hd hd' heq hclist => ?_⟩
  · exact (Function.update_of_ne hb.1.symm ..).trans hs.intact.null
  · by_contra hlists
    refine Bool.false_ne_true (Eq.symm ?_ |>.trans ha)
    cases hnew a hlists with
    | inl hold =>
      have hne : a ≠ b.addr := fun heq => hold (heq ▸ hfree.2)
      exact (Function.update_of_ne hne ..).trans (hs.intact.not_block hold)
    | inr hfresh =>
      exact (Function.update_of_ne hfresh.2.2 ..).trans (hs.intact.free hfresh.2.1).1
  · dsimp only at hclist ⊢
    by_cases hne : d = b.addr
    · rw [hne,Function.update_self] at hclist ⊢
      exact (hw hf hclist).1
    · rw [Function.update_of_ne hne] at hclist ⊢
      exact hold _ (hs.points hf d (hlive d hd hne) hclist)
  · dsimp only at heq hclist
    -- the new list is nobody else's
    have hown : ∀ c, c ≠ b.addr → Function.update h.procData b.addr true c = true →
        h.clist c = w → w ≠ NULL → False := by
      intro c hne hc hcw hnull
      have hlists := hs.points hf c (hlive c hc hne) (hcw ▸ hnull)
      rw [hcw] at hlists
      exact hlists (hw hf hnull).2
    by_cases hne : d = b.addr
    · by_cases hne' : d' = b.addr
      · rw [hne,hne']
      · rw [hne,Function.update_self,Function.update_of_ne hne'] at heq
        rw [hne,Function.update_self] at hclist
        exact (hown d' hne' hd' heq.symm hclist).elim
    · by_cases hne' : d' = b.addr
      · rw [hne',Function.update_self,Function.update_of_ne hne] at heq
        rw [Function.update_of_ne hne,heq] at hclist
        exact (hown d hne hd heq hclist).elim
      · rw [Function.update_of_ne hne,Function.update_of_ne hne'] at heq
        rw [Function.update_of_ne hne] at hclist
        exact hs.unique hf d d' (hlive d hd hne) (hlive d' hd' hne') heq hclist

lemma setClist_kmalloc (b : Block) (w : Word) (h : Heap) : (h.kmalloc b).setClist b.addr w =
    ⟨Function.update h.procData b.addr true,Function.update h.clist b.addr w,
      Function.update h.stored b.addr true,h.lists,h.corrupted⟩ := by
  simp only [Heap.kmalloc,Heap.setClist,Function.update_idem]

variable (build h) in
/-- What an attach that gets its block leaves: the block points to its list, if there is one. -/
lemma attach_heap (b : Block) (kvmalloc : Option Word) : ∃ w lists,
    (clientHookOnAttach build (some b) kvmalloc h).1 =
        ⟨Function.update h.procData b.addr true,Function.update h.clist b.addr w,
          Function.update h.stored b.addr true,lists,h.corrupted⟩ ∧
      (build.freesLists = false ∧ lists = h.lists ∨
        build.freesLists = true ∧ kvmalloc = none ∧ w = NULL ∧ lists = h.lists ∨
        build.freesLists = true ∧ kvmalloc = some w ∧ lists = Function.update h.lists w
          (some ⟨LOCAL_BUFFER_SIZE / sizeofProcData,sizeofProcData⟩)) := by
  simp only [clientHookOnAttach]
  cases hf : build.freesLists with
  | false =>
    rw [bufferingDynamicInit_of_keepsLists _ hf,setClist_kmalloc]
    exact ⟨_,h.lists,rfl,.inl ⟨rfl,rfl⟩⟩
  | true =>
    rw [bufferingDynamicInit_of_freesLists _ hf]
    cases kvmalloc with
    | none => exact ⟨NULL,h.lists,setClist_kmalloc b NULL h,.inr (.inl ⟨rfl,rfl,rfl,rfl⟩)⟩
    | some list =>
      refine ⟨list,_,?_,.inr (.inr ⟨rfl,rfl,rfl⟩)⟩
      exact setClist_kmalloc b list { h with lists := Function.update h.lists list _ }

lemma Sound.attach (hs : Sound build h) {b : Block} (hb : h.Free b.addr) {kvmalloc : Option Word}
    (hlist : ∀ list, kvmalloc = some list → h.Free list ∧ list ≠ b.addr) :
    Sound build (clientHookOnAttach build (some b) kvmalloc h).1 := by
  obtain ⟨w,lists,heq,hcases⟩ := attach_heap build h b kvmalloc
  rw [heq]
  rcases hcases with ⟨hf,rfl⟩ | ⟨hf,-,rfl,rfl⟩ | ⟨hf,hsome,rfl⟩
  · exact hs.alloc hb (fun _ ha => ha) (fun _ ha => .inl ha)
      (fun hfree => absurd (hf.symm.trans hfree) Bool.false_ne_true) _
  · exact hs.alloc hb (fun _ ha => ha) (fun _ ha => .inl ha) (fun _ hne => absurd rfl hne) _
  · obtain ⟨hfresh,hne⟩ := hlist w hsome
    have hnone := (hs.intact.free hfresh).2
    refine hs.alloc hb (fun a ha => ?_) (fun a ha => ?_) (fun _ _ => ⟨?_,hnone⟩) _
    · by_cases haw : a = w
      · exact absurd hnone (haw ▸ ha)
      · rwa [Function.update_of_ne haw]
    · by_cases haw : a = w
      · exact .inr ⟨haw,haw ▸ hfresh,haw ▸ hne⟩
      · rw [Function.update_of_ne haw] at ha
        exact .inl ha
    · rw [Function.update_self]
      exact Option.some_ne_none _

lemma Sound.register (hs : Sound build h) {b : Block} (hb : h.Free b.addr)
    (hword : build.freesLists = true → b.word = NULL) : Sound build (h.kmalloc b) :=
  hs.alloc hb (fun _ ha => ha) (fun _ ha => .inl ha)
    (fun hf hne => absurd (hword hf) hne) _

lemma lists_kfree (h : Heap) (p a : Word) :
    (h.kfree p).lists a = if p ≠ NULL ∧ a = p then none else h.lists a := by
  unfold Heap.kfree
  by_cases hp : p = NULL
  · rw [if_pos hp,if_neg fun hne => hne.1 hp]
  · rw [if_neg hp]
    dsimp only
    by_cases ha : a = p
    · rw [if_pos ⟨hp,ha⟩,ha,Function.update_self]
    · rw [if_neg fun hne => ha hne.2,Function.update_of_ne ha]

/-- A detach frees what lies at its block and, in the builds that free lists, at the list of the
block. -/
lemma lists_detach {data : Word} (hdata : data ≠ NULL) (a : Word) :
    (clientHookOnDetach build h data).lists a =
      if a = data ∨ build.freesLists = true ∧ h.clist data ≠ NULL ∧ a = h.clist data then none
      else h.lists a := by
  rw [clientHookOnDetach,if_neg hdata,lists_kfree,bufferingDynamicFini_eq]
  by_cases ha : a = data
  · rw [if_pos ⟨hdata,ha⟩,if_pos (.inl ha)]
  · rw [if_neg fun h => ha h.2]
    by_cases hf : build.freesLists = true
    · rw [if_pos hf,lists_kfree]
      exact if_congr (by simp only [ha,hf,false_or,true_and]) rfl rfl
    · rw [if_neg hf,if_neg fun h => h.elim ha fun h => hf h.1]

lemma clist_detach (data : Word) : (clientHookOnDetach build h data).clist = h.clist := by
  have hkfree : ∀ (h : Heap) p, (h.kfree p).clist = h.clist := by
    intro h p
    unfold Heap.kfree
    split <;> rfl
  rw [clientHookOnDetach]
  split
  · rfl
  · rw [hkfree,bufferingDynamicFini_eq]
    split
    · exact hkfree h _
    · rfl

lemma Sound.detachable (hs : Sound build h) {data : Word} (hdata : h.procData data = true) :
    h.Detachable build data := fun _ hf =>
  or_iff_not_imp_left.mpr fun hne => Option.isSome_iff_ne_none.mpr (hs.points hf data hdata hne)

lemma Sound.detach (hs : Sound build h) {data : Word} (hdata : h.procData data = true) :
    Sound build (clientHookOnDetach build h data) := by
  have hnull := hs.intact.ne_null hdata
  have hintact := hs.intact.detach (fun _ => hdata) (hs.detachable hdata)
  have hlive : ∀ d, (clientHookOnDetach build h data).procData d = true →
      h.procData d = true ∧ d ≠ data := by
    intro d hd
    obtain ⟨hold,-,hne⟩ :=
      (procData_clientHookOnDetach build h hnull (hintact.ne_null hd)).mp hd
    exact ⟨hold,hne⟩
  refine ⟨hintact,fun hf d hd hclist => ?_,fun hf d d' hd hd' heq hclist => ?_⟩
  · obtain ⟨hold,hne⟩ := hlive d hd
    rw [clist_detach] at hclist ⊢
    have hlists := hs.points hf d hold hclist
    rw [lists_detach hnull,if_neg ?_]
    · exact hlists
    · rintro (heq | ⟨-,-,heq⟩)
      · rw [← heq,hs.intact.not_block hlists] at hdata
        exact Bool.false_ne_true hdata
      · exact hne (hs.unique hf d data hold hdata heq hclist)
  · rw [clist_detach] at heq hclist
    exact hs.unique hf d d' (hlive d hd).1 (hlive d' hd').1 heq hclist

end Heaps

section Steps
variable [DecidableEq Cpu] {build : Build} {s : State Cpu Task}

lemma next_heap_attach (s : State Cpu Task) (kmalloc : Option Block) (words : ℕ → Word)
    (kvmalloc : Option Word) (mem : Memory) :
    (next build s (.attach kmalloc words kvmalloc mem)).buffers.heap =
      (clientHookOnAttach build kmalloc kvmalloc s.buffers.heap).1 := rfl

lemma Sound.next (hs : Sound build s.buffers.heap) {e : Event Cpu Task} (he : Allowed build s e) :
    Sound build (next build s e).buffers.heap := by
  cases e with
  | pmi e =>
    have hbuffers : (Samples.next build s (.pmi e)).buffers = s.buffers := (pmi_frame build s e).2
    rw [hbuffers]
    exact hs
  | param info kstrtoint => exact hs
  | register kmalloc words =>
    cases kmalloc with
    | none => exact hs
    | some b =>
      obtain ⟨hb,hword⟩ := he b rfl
      exact hs.register hb hword
  | attach kmalloc words kvmalloc mem =>
    cases kmalloc with
    | none => exact hs
    | some b =>
      obtain ⟨hb,hlist⟩ := he b rfl
      exact hs.attach hb hlist
  | detach data =>
    cases he with
    | inl hnull =>
      have hsame : clientHookOnDetach build s.buffers.heap data = s.buffers.heap := if_pos hnull
      simp only [Samples.next,hsame]
      exact hs
    | inr hdata => exact hs.detach hdata

/-- The event is no detach of the block that the list belongs to. -/
def Spares (build : Build) (a : Word) (s : State Cpu Task) : Event Cpu Task → Prop
  | .detach data => build.freesLists = true → data ≠ NULL → s.buffers.heap.clist data ≠ a
  | _ => True

/-- A list that is not freed stays where it is, and no step but a PMI touches it. -/
lemma list_stays (hs : Sound build s.buffers.heap) {e : Event Cpu Task} (he : Allowed build s e)
    {a : Word} (ha : s.buffers.heap.lists a ≠ none) (hspares : Spares build a s e) :
    (next build s e).buffers.heap.lists a ≠ none ∧
      ((∀ p, e ≠ .pmi p) → (next build s e).contents a = s.contents a) := by
  cases e with
  | pmi e =>
    have hbuffers : (next build s (.pmi e)).buffers = s.buffers := (pmi_frame build s e).2
    rw [hbuffers]
    exact ⟨ha,fun h => absurd rfl (h e)⟩
  | param info kstrtoint => exact ⟨ha,fun _ => rfl⟩
  | register kmalloc words => cases kmalloc <;> exact ⟨ha,fun _ => rfl⟩
  | attach kmalloc words kvmalloc mem =>
    cases kmalloc with
    | none =>
      refine ⟨ha,fun _ => ?_⟩
      simp only [next]
      cases build.bufferp <;> rfl
    | some b =>
      obtain ⟨hb,hlist⟩ := he b rfl
      have hne : ∀ list, kvmalloc = some list → a ≠ list := by
        intro list hsome heq
        rw [heq] at ha
        exact ha (hs.intact.free (hlist list hsome).1).2
      constructor
      · obtain ⟨w,lists,heq,hcases⟩ := attach_heap build s.buffers.heap b kvmalloc
        rw [next_heap_attach,heq]
        rcases hcases with ⟨-,rfl⟩ | ⟨-,-,-,rfl⟩ | ⟨-,hsome,rfl⟩
        · exact ha
        · exact ha
        · exact (Function.update_of_ne (hne w hsome) ..).trans_ne ha
      · intro _
        simp only [next]
        cases kvmalloc with
        | none => cases build.bufferp <;> rfl
        | some list =>
          cases build.bufferp with
          | thread => exact Function.update_of_ne (hne list rfl) ..
          | none | system | cpu => rfl
  | detach data =>
    have hlists : (clientHookOnDetach build s.buffers.heap data).lists a ≠ none := by
      by_cases hnull : data = NULL
      · rwa [clientHookOnDetach,if_pos hnull]
      · have hdata := he.resolve_left hnull
        rw [lists_detach hnull,if_neg ?_]
        · exact ha
        · rintro (heq | ⟨hf,-,heq⟩)
          · rw [← heq,hs.intact.not_block ha] at hdata
            exact Bool.false_ne_true hdata
          · exact hspares hf hnull heq.symm
    exact ⟨hlists,fun _ => if_neg hlists⟩

lemma next_pcpuClist (s : State Cpu Task) (e : Event Cpu Task) :
    (next build s e).buffers.pcpuClist = s.buffers.pcpuClist := by
  cases e with
  | pmi e =>
    have hbuffers : (next build s (.pmi e)).buffers = s.buffers := (pmi_frame build s e).2
    rw [hbuffers]
  | _ => rfl

omit [DecidableEq Cpu] in
lemma Allowed.inRange {e : Event Cpu Task} (he : Allowed build s e) : InRange e := by
  cases e with
  | param info kstrtoint => exact he
  | _ => trivial

end Steps

section Cpus
variable [DecidableEq Cpu] {build : Build} {possible : Possible Cpu} {nr : ℕ}

omit [DecidableEq Cpu] in
lemma initClist_of_some (hc : build.clist ≠ .none) (h : Heap) (list : Word)
    (entry_count entry_size : ℕ) : Client.initClist build (some list) h entry_count entry_size =
      ({ h with lists := Function.update h.lists list (some ⟨entry_count,entry_size⟩) },list) := by
  unfold Client.initClist
  cases hclist : build.clist with
  | none => exact absurd hclist hc
  | array | nblist => rfl

/-- The allocation loop, where it succeeds: each CPU gets the list that was allocated for it. -/
lemma bcpuAlloc_addresses (hc : build.clist ≠ .none) (all : List Cpu)
    (kvmalloc : Cpu → Kvmalloc) (entry_size : ℕ) {cpus : List Cpu} {s : Statics Cpu}
    (hnodup : cpus.Nodup) (hzero : (bcpuAlloc build all kvmalloc entry_size cpus s).1 = 0) :
    let r := (bcpuAlloc build all kvmalloc entry_size cpus s).2
    let sizes := some (⟨GLOBAL_BUFFER_SIZE / entry_size,entry_size⟩ : Client.Clist)
    r.heap.procData = s.heap.procData ∧ r.heap.corrupted = s.heap.corrupted ∧
      (∀ a, s.heap.lists a = sizes → r.heap.lists a = sizes) ∧
      (∀ cpu ∈ cpus, (kvmalloc cpu).map Subtype.val = some (r.pcpuClist cpu) ∧
        r.heap.lists (r.pcpuClist cpu) = sizes) ∧
      ∀ cpu ∉ cpus, r.pcpuClist cpu = s.pcpuClist cpu := by
  induction cpus generalizing s with
  | nil =>
    exact ⟨rfl,rfl,fun _ ha => ha,fun _ hcpu => absurd hcpu List.not_mem_nil,fun _ _ => rfl⟩
  | cons cpu cpus ih =>
    obtain ⟨hnew,hnodup⟩ := List.nodup_cons.mp hnodup
    by_cases hmade : ListMade build (kvmalloc cpu)
    · obtain ⟨⟨list,hlist⟩,hsome⟩ := Option.isSome_iff_exists.mp (hmade.resolve_left hc)
      simp only [bcpuAlloc] at hzero ⊢
      rw [hsome,Option.map_some,initClist_of_some hc,if_neg hlist] at hzero ⊢
      obtain ⟨hproc,hcorr,hkept,hmine,hothers⟩ := ih hnodup hzero
      refine ⟨hproc,hcorr,fun a ha => hkept a ?_,fun c hmem => ?_,fun c hmem => ?_⟩
      · by_cases hal : a = list
        · rw [hal]
          exact Function.update_self ..
        · exact (Function.update_of_ne hal ..).trans ha
      · by_cases hcpu : c = cpu
        · rw [hcpu,hothers cpu hnew,hsome]
          dsimp only
          rw [Function.update_self]
          exact ⟨rfl,hkept list (Function.update_self ..)⟩
        · exact hmine c (List.mem_of_ne_of_mem hcpu hmem)
      · obtain ⟨hne,hrest⟩ := not_or.mp (mt List.mem_cons.mpr hmem)
        rw [hothers c hrest]
        exact Function.update_of_ne hne ..
    · simp only [bcpuAlloc,initClist_of_not_made hmade,if_true] at hzero
      exact absurd hzero (by decide)

/-- The samples that are taken on a CPU. -/
def onCpu (cpu : Cpu) (e : PmiCall Cpu Task) : Bool := decide (Taken e ∧ e.cpu = cpu)

/-- PMIs come on possible CPUs. -/
def OnCpus (possible : Possible Cpu) : Event Cpu Task → Prop
  | .pmi e => e.cpu ∈ possible.cpus
  | _ => True

/-- The list of a CPU, which nothing frees. -/
structure CpuList (build : Build) (nr : ℕ) (pcpu : Cpu → Word) (cpu : Cpu)
    (s : State Cpu Task) : Prop where
  sound : Sound build s.buffers.heap
  ready : Ready nr s.sampler
  list : s.buffers.heap.lists (pcpu cpu) ≠ none
  pcpu : s.buffers.pcpuClist = pcpu

omit [DecidableEq Cpu] in
lemma spares_of_cpu (hb : build.bufferp = .cpu) (a : Word) (s : State Cpu Task)
    (e : Event Cpu Task) : Spares build a s e := by
  have hf : build.freesLists = false := by
    rw [Build.freesLists,hb]
    rfl
  cases e with
  | detach data => exact fun h => absurd (hf.symm.trans h) Bool.false_ne_true
  | _ => trivial

variable {pcpu : Cpu → Word} {cpu : Cpu} {s : State Cpu Task}

lemma CpuList.next (hb : build.bufferp = .cpu) (h : CpuList build nr pcpu cpu s)
    {e : Event Cpu Task} (he : Allowed build s e) :
    CpuList build nr pcpu cpu (next build s e) := by
  refine ⟨h.sound.next he,(next_ready build h.ready he.inRange).1,?_,?_⟩
  · exact (list_stays h.sound he h.list (spares_of_cpu hb _ s e)).1
  · exact (next_pcpuClist s e).trans h.pcpu

lemma CpuList.routes (hb : build.bufferp = .cpu) (h : CpuList build nr pcpu cpu s)
    (hinj : ∀ c ∈ possible.cpus, pcpu c = pcpu cpu → c = cpu) {e : Event Cpu Task}
    (he : Allowed build s e) (hon : OnCpus possible e) :
    Routes build (onCpu cpu) (pcpu cpu) s e := by
  have hstays := (list_stays h.sound he h.list (spares_of_cpu hb _ s e)).2
  cases e with
  | pmi e =>
    simp only [Routes,goesTo,target,hb,h.pcpu,onCpu,decide_eq_true_eq]
    by_cases htaken : Taken e
    · rw [if_pos htaken,Option.some_inj]
      constructor
      · exact fun heq => ⟨htaken,hinj e.cpu hon heq⟩
      · exact fun hmine => congrArg pcpu hmine.2
    · rw [if_neg htaken]
      exact iff_of_false (Option.some_ne_none _).symm fun hmine => htaken hmine.1
  | param | register | attach | detach => exact hstays fun p hp => by cases hp

/-- With a list for each CPU (BUFFERP=CPU), a list is written to with the samples that its own CPU
has taken, in their order, and with nothing else, whatever tasks run there, come and go: of all
the calls on that CPU the last ones are there with the counters they read, 11915 of them in the non-blocking list (as long as its TAIL
has not wrapped) and 137 in the locked array. -/
theorem cpu_lists_keep (hb : build.bufferp = .cpu) (hc : build.clist ≠ .none)
    {allocs : ListAllocs Cpu} (hfresh : ∀ c ∈ possible.cpus, ∀ c' ∈ possible.cpus,
      allocs.pcpu c = allocs.pcpu c' → c = c') {buffers : Statics Cpu}
    (hinit : bufferingStaticInit build possible allocs sizeofPmcsData Statics.init = (0,buffers))
    {sampler : Sampler Cpu Task} (hready : Ready nr sampler) {mem : Word → Memory}
    {es : List (Event Cpu Task)}
    (hes : Admits (Samples.next build) (fun s e => Allowed build s e ∧ OnCpus possible e)
      (start build sampler buffers mem) es) (hcpu : cpu ∈ possible.cpus)
    (hwrap : build.clist = .nblist →
      (calls (onCpu cpu) sampler.readablePmcs es).length * sizeofPmcsData < 2^32) :
    ∃ l, (es.foldl (Samples.next build) (start build sampler buffers mem)).contents
        (buffers.pcpuClist cpu) = some l ∧
      Records build.clist (mem (buffers.pcpuClist cpu)) (GLOBAL_BUFFER_SIZE / sizeofPmcsData)
        sizeofPmcsData nr (calls (onCpu cpu) sampler.readablePmcs es) l := by
  have hloop : bcpuAlloc build possible.cpus allocs.pcpu sizeofPmcsData possible.cpus
      Statics.init = (0,buffers) := by
    rw [bufferingStaticInit,hb] at hinit
    exact hinit
  obtain ⟨hproc,hcorr,-,hmine,-⟩ := bcpuAlloc_addresses hc possible.cpus allocs.pcpu sizeofPmcsData
    possible.nodup (congrArg Prod.fst hloop)
  rw [hloop] at hproc hcorr hmine
  dsimp only at hproc hcorr hmine
  obtain ⟨-,hlist⟩ := hmine cpu hcpu
  have hinj : ∀ c ∈ possible.cpus, buffers.pcpuClist c = buffers.pcpuClist cpu → c = cpu := by
    intro c hmem heq
    apply hfresh c hmem cpu hcpu
    apply Option.map_injective Subtype.val_injective
    rw [(hmine c hmem).1,(hmine cpu hcpu).1,heq]
  have hstart : CpuList build nr buffers.pcpuClist cpu (start build sampler buffers mem) := by
    have hf : build.freesLists = false := by
      rw [Build.freesLists,hb]
      rfl
    have hnone : ∀ a, buffers.heap.procData a = false := fun a => congrFun hproc a
    have hintact : buffers.heap.Intact :=
      ⟨hcorr,hnone NULL,fun a ha => absurd ((hnone a).symm.trans ha) Bool.false_ne_true⟩
    refine ⟨⟨hintact,fun h => ?_,fun h => ?_⟩,hready,?_,rfl⟩
    · exact absurd (hf.symm.trans h) Bool.false_ne_true
    · exact absurd (hf.symm.trans h) Bool.false_ne_true
    · exact hlist.trans_ne (Option.some_ne_none _)
  obtain ⟨blocks,hcontents,hcarries⟩ := run_contents
    (I := CpuList build nr buffers.pcpuClist cpu)
    (fun s e h he => h.next hb he.1) (fun s h => h.ready)
    (fun s e h he => ⟨h.routes hb hinj he.1 he.2,he.1.inRange⟩) hstart hes
  obtain ⟨l,hl⟩ : ∃ l, initContents build.clist (mem (buffers.pcpuClist cpu))
      (GLOBAL_BUFFER_SIZE / sizeofPmcsData) sizeofPmcsData = some l := initContents_isSome hc ..
  have hfirst : (start build sampler buffers mem).contents (buffers.pcpuClist cpu) = some l := by
    simp only [start]
    rw [hlist]
    exact hl
  rw [hfirst] at hcontents
  exact ⟨_,hcontents,records_of_contents (by decide) (by decide) le_rfl hready.three hl hcarries
    hwrap⟩

/-- One CPU, and one PMI in the task that was attached before it. -/
theorem cpu_lists_keep_one :
    let p : Pcpu Unit := ⟨0,0,0,0,0,fun _ => 0,0,0,0,[]⟩
    let sampler : Sampler Unit Unit :=
      ⟨⟨true,0,1,3,8,2^28-1,.irq,false,true,fun _ => p⟩,2,fun _ _ => 0⟩
    let build : Build := ⟨.cpu,.nblist,16⟩
    let buffers := (bufferingStaticInit build ⟨[()],by decide⟩
      ⟨none,fun _ => some ⟨4096,by decide⟩⟩ sizeofPmcsData Statics.init).2
    let call : Snapshot := ⟨8,fun n => .ofNat 64 n⟩
    let es := [.attach (some ⟨8,0⟩) (fun _ => 0) none (fun _ => 0),.pmi ⟨⟨(),(),1⟩,call⟩]
    ∃ l, (es.foldl (Samples.next build) (start build sampler buffers fun _ _ => 0)).contents 4096 =
        some l ∧ Holds 3 l.buf 0 (call,2) := by
  intro p sampler build buffers call es
  have hready : Ready 3 sampler := ⟨rfl,rfl,le_rfl,by decide⟩
  have hinit : bufferingStaticInit build ⟨[()],by decide⟩ ⟨none,fun _ => some ⟨4096,by decide⟩⟩
      sizeofPmcsData Statics.init = (0,buffers) := Prod.ext rfl rfl
  have hes : Admits (Samples.next build)
      (fun s e => Allowed build s e ∧ OnCpus ⟨[()],by decide⟩ e)
      (start build sampler buffers fun _ _ => 0) es := by
    refine ⟨⟨fun b hb => ?_,trivial⟩,⟨.inr (by decide),List.mem_singleton.mpr rfl⟩,trivial⟩
    obtain rfl := Option.some.inj hb
    exact ⟨by decide,fun list hlist => by cases hlist⟩
  obtain ⟨l,hl,hrecords⟩ := cpu_lists_keep rfl (by decide)
    (fun c _ c' _ _ => rfl) hinit hready hes (List.mem_singleton.mpr rfl) (fun _ => by decide)
  exact ⟨l,hl,hrecords.keeps.holds 0 (by decide) (by decide)⟩

end Cpus

section Tasks
variable [DecidableEq Cpu] {build : Build} {nr : ℕ}

/-- The samples that are taken of the task with a block at `d`. -/
def ofBlock (d : Word) (e : PmiCall Cpu Task) : Bool := decide (Taken e ∧ e.call.procData = d)

/-- The event does not detach the block at `d`. -/
def Keep (d : Word) : Event Cpu Task → Prop
  | .detach data => data ≠ d
  | _ => True

/-- A live block with its list. -/
structure TaskList (build : Build) (nr : ℕ) (d a : Word) (s : State Cpu Task) : Prop where
  sound : Sound build s.buffers.heap
  ready : Ready nr s.sampler
  block : s.buffers.heap.procData d = true
  clist : s.buffers.heap.clist d = a
  list : s.buffers.heap.lists a ≠ none
  ne_null : a ≠ NULL

variable {d a : Word} {s : State Cpu Task}

omit [DecidableEq Cpu] in
/-- The detach of another block frees another list. -/
lemma TaskList.spares (hf : build.freesLists = true) (h : TaskList build nr d a s)
    {e : Event Cpu Task} (he : Allowed build s e) (hkeep : Keep d e) : Spares build a s e := by
  cases e with
  | detach data =>
    intro _ hnull heq
    have hdata := he.resolve_left hnull
    have hsame := h.clist.trans heq.symm
    have hne : s.buffers.heap.clist d ≠ NULL := h.clist.trans_ne h.ne_null
    exact hkeep (h.sound.unique hf d data h.block hdata hsame hne).symm
  | _ => trivial

/-- No other event moves the block. -/
lemma TaskList.block_next (hf : build.freesLists = true) (h : TaskList build nr d a s)
    {e : Event Cpu Task} (he : Allowed build s e) (hkeep : Keep d e) :
    (next build s e).buffers.heap.procData d = true ∧
      (next build s e).buffers.heap.clist d = a := by
  have hfree : ∀ p, s.buffers.heap.Free p → d ≠ p := by
    intro p hp heq
    have hblock := h.block
    rw [heq,(h.sound.intact.free hp).1] at hblock
    exact Bool.false_ne_true hblock
  cases e with
  | pmi e =>
    have hbuffers : (Samples.next build s (.pmi e)).buffers = s.buffers := (pmi_frame build s e).2
    rw [hbuffers]
    exact ⟨h.block,h.clist⟩
  | param info kstrtoint => exact ⟨h.block,h.clist⟩
  | register kmalloc words =>
    cases kmalloc with
    | none => exact ⟨h.block,h.clist⟩
    | some b =>
      have hne := hfree b.addr (he b rfl).1
      exact ⟨(Function.update_of_ne hne ..).trans h.block,
        (Function.update_of_ne hne ..).trans h.clist⟩
  | attach kmalloc words kvmalloc mem =>
    cases kmalloc with
    | none => exact ⟨h.block,h.clist⟩
    | some b =>
      have hne := hfree b.addr (he b rfl).1
      obtain ⟨w,lists,heq,-⟩ := attach_heap build s.buffers.heap b kvmalloc
      rw [next_heap_attach,heq]
      exact ⟨(Function.update_of_ne hne ..).trans h.block,
        (Function.update_of_ne hne ..).trans h.clist⟩
  | detach data =>
    have hspares := h.spares hf he hkeep
    refine ⟨?_,(congrFun (clist_detach data) d).trans h.clist⟩
    by_cases hnull : data = NULL
    · simp only [Samples.next,clientHookOnDetach,if_pos hnull]
      exact h.block
    · have hdnull := h.sound.intact.ne_null h.block
      refine (procData_clientHookOnDetach build s.buffers.heap hnull hdnull).mpr
        ⟨h.block,fun _ heq => ?_,Ne.symm hkeep⟩
      -- what lies at the freed address is a list, not a block
      have hdata := he.resolve_left hnull
      have hlists := h.sound.points hf data hdata (heq ▸ hdnull)
      rw [← heq] at hlists
      exact Bool.false_ne_true ((h.sound.intact.not_block hlists).symm.trans h.block)

lemma TaskList.next (hf : build.freesLists = true) (h : TaskList build nr d a s)
    {e : Event Cpu Task} (he : Allowed build s e) (hkeep : Keep d e) :
    TaskList build nr d a (next build s e) := by
  obtain ⟨hblock,hclist⟩ := h.block_next hf he hkeep
  refine ⟨h.sound.next he,(next_ready build h.ready he.inRange).1,hblock,hclist,?_,h.ne_null⟩
  exact (list_stays h.sound he h.list (h.spares hf he hkeep)).1

lemma TaskList.routes (hb : build.bufferp = .thread) (hf : build.freesLists = true)
    (h : TaskList build nr d a s) {e : Event Cpu Task} (he : Allowed build s e)
    (hkeep : Keep d e) : Routes build (ofBlock d) a s e := by
  have hstays := (list_stays h.sound he h.list (h.spares hf he hkeep)).2
  cases e with
  | pmi e =>
    simp only [Routes,goesTo,target,hb,ofBlock,decide_eq_true_eq]
    by_cases htaken : Taken e
    · have hlive := he.resolve_left htaken.2
      rw [if_pos htaken]
      constructor
      · intro hgoes
        split_ifs at hgoes with hne
        have hclist := (Option.some.inj hgoes).trans h.clist.symm
        exact ⟨htaken,h.sound.unique hf _ d hlive h.block hclist hne⟩
      · intro hmine
        rw [hmine.2,h.clist,if_pos h.ne_null]
    · rw [if_neg htaken]
      exact iff_of_false (Option.some_ne_none _).symm fun hmine => htaken hmine.1
  | param | register | attach | detach => exact hstays fun p hp => by cases hp

end Tasks
end PmuMin.Samples
