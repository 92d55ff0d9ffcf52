import PmuMin.Client.Buffering

/-! The rollback of `buffering_static_init` in `bcpu.c`: which lists the loop at `alloc_fail`
passes to `fini_clist`, against the ones made before the failing CPU. -/
namespace PmuMin.Client
variable {Cpu : Type} [DecidableEq Cpu] (build : Build)

/-- The arguments of `fini_clist` in the whole of `buffering_static_init`. -/
def bcpuAllocFreed (possible : List Cpu) (kvmalloc : Cpu → Kvmalloc) (entry_size : ℕ) :
    List Cpu → Statics Cpu → List Word
  | [],_ => []
  | cpu :: cpus,s =>
    let r := initClist build ((kvmalloc cpu).map Subtype.val) s.heap
      (GLOBAL_BUFFER_SIZE / entry_size) entry_size
    let s := { s with heap := r.1, pcpuClist := Function.update s.pcpuClist cpu r.2 }
    if r.2 = NULL then bcpuFreed cpu possible s
    else bcpuAllocFreed possible kvmalloc entry_size cpus s

variable (possible : Possible Cpu) (allocs : ListAllocs Cpu) (entry_size : ℕ) (s : Statics Cpu)

/-- `buffering_static_init` returns zero exactly with every list in place, and when it fails it
has freed each list of a CPU before the failing one once, and no list is left. -/
structure CpuAllOrNothing : Prop where
  success : (bufferingStaticInit build possible allocs entry_size s).1 = 0 ↔
    ∀ cpu ∈ possible.cpus,
      ListAt build entry_size (bufferingStaticInit build possible allocs entry_size s).2.heap
        ((bufferingStaticInit build possible allocs entry_size s).2.pcpuClist cpu)
  freed : (bufferingStaticInit build possible allocs entry_size s).1 = -ENOMEM →
    ∀ cpu ∈ possible.cpus.takeWhile fun cpu => ListMade build (allocs.pcpu cpu),
      (bcpuAllocFreed build possible.cpus allocs.pcpu entry_size possible.cpus s).count
        ((bufferingStaticInit build possible allocs entry_size s).2.pcpuClist cpu) = 1
  nothing : (bufferingStaticInit build possible allocs entry_size s).1 = -ENOMEM →
    NoLists (bufferingStaticInit build possible allocs entry_size s).2

variable {build possible allocs s}

lemma bufferingStaticInit_ret (hb : build.bufferp = .cpu) (hdummy : build.dummy ≠ NULL)
    (hs : NoLists s) (entry_size : ℕ) :
    (bufferingStaticInit build possible allocs entry_size s).1 = 0 ∨
      (bufferingStaticInit build possible allocs entry_size s).1 = -ENOMEM := by
  have hnone : MadeFor build entry_size [] s := MadeFor.of_noLists hs
  have hret := (bcpuAlloc_spec hdummy possible.cpus allocs.pcpu possible.cpus hnone
    possible.nodup).2
  rw [bufferingStaticInit,hb]
  exact hret ▸ ite_eq_or_eq ..

theorem first_list_leaked :
    let build : Build := ⟨.cpu,.nblist,8⟩
    let allocs : ListAllocs (Fin 2) := ⟨none,fun cpu => if cpu = 0 then some ⟨64,by decide⟩ else none⟩
    ¬ CpuAllOrNothing build ⟨[0,1],by decide⟩ allocs 88 .init := by
  intro build allocs h
  exact absurd (h.nothing (by decide) 64) (by decide)

/-- The allocation of the lists for each CPU is all or nothing exactly if none fails, or the
first one does: the rollback frees the list of the failing CPU, which is NULL, in place of the
others. -/
theorem cpu_lists_all_or_nothing_iff (hb : build.bufferp = .cpu) (hdummy : build.dummy ≠ NULL)
    (hs : NoLists s) : CpuAllOrNothing build possible allocs entry_size s ↔
      AllListsMade build possible allocs ∨ FirstListFails build possible allocs := by
  constructor
  · intro h
    by_contra hneither
    rw [not_or] at hneither
    obtain ⟨hne,hleft⟩ := bufferingStaticInit_leaks entry_size hdummy hneither.1 hneither.2 hs
    have hret := (bufferingStaticInit_ret hb hdummy hs entry_size).resolve_left hne
    rcases hleft with hpos | hlists
    · rw [hret] at hpos
      exact absurd hpos (by decide)
    · exact hlists (h.nothing hret)
  · rintro (hall | hfirst)
    · obtain ⟨hzero,hplace,-⟩ := bufferingStaticInit_made entry_size hdummy hall hs
      rw [ListsInPlace,hb] at hplace
      have hne : (bufferingStaticInit build possible allocs entry_size s).1 ≠ -ENOMEM := by
        rw [hzero]
        decide
      exact ⟨iff_of_true hzero hplace,fun h => absurd h hne,fun h => absurd h hne⟩
    · obtain ⟨hret,hlists⟩ := bufferingStaticInit_first entry_size hdummy hfirst hs
      obtain ⟨-,cpu,hcpu,hfail⟩ := hfirst
      obtain ⟨cpus,hcpus⟩ := List.head?_eq_some_iff.mp hcpu
      refine ⟨iff_of_false (by rw [hret]; decide) fun hplace => ?_,fun _ => ?_,fun _ => hlists⟩
      · have hlist := (hplace cpu (by rw [hcpus]; exact List.mem_cons_self)).2 fun hclist =>
          hfail (.inl hclist)
        exact Option.some_ne_none _ (hlist.symm.trans (hlists _))
      · rw [hcpus,List.takeWhile_cons_of_neg (by simpa using hfail)]
        exact fun cpu hcpu => absurd hcpu List.not_mem_nil

theorem cpu_lists_all_or_nothing_served :
    let build : Build := ⟨.cpu,.nblist,8⟩
    let allocs : ListAllocs (Fin 2) :=
      ⟨none,fun cpu => if cpu = 0 then none else some ⟨64,by decide⟩⟩
    CpuAllOrNothing build ⟨[0,1],by decide⟩ allocs 88 .init :=
  (cpu_lists_all_or_nothing_iff 88 rfl (by decide) fun _ => rfl).mpr
    (.inr ⟨by decide,0,rfl,by decide⟩)

end PmuMin.Client
