import PmuMin.Client.Buffering
import PmuMin.Client.Pmi
import PmuMin.Clist.Carray
import PmuMin.Clist.Retention
import PmuMin.Library.LittleEndian

/-! The way of a sample from the interrupt to its list: `pmi_handler`, `snapshot_pmc`,
`write_sample` and `write_clist` in one step, over the tasks that come and go. -/
namespace PmuMin.Samples
open Client Machine Pmu SlotBuffer
open NbBoundedList (Memory)

/-- A list of either build. -/
inductive Contents
  | carray (l : LockedArray.Carray)
  | nbblist (l : NbBoundedList.Nbblist)

namespace Contents

def buf : Contents → Memory
  | carray l => l.buf
  | nbblist l => l.buf

def writeClist (bucket : Memory) : Contents → Contents
  | carray l => carray (LockedArray.writeClist l bucket)
  | nbblist l => nbblist (NbBoundedList.writeClist l bucket)

end Contents

/-- `init_clist` of the build, in a block that held `mem`. -/
def initContents (clist : ClistBuild) (mem : Memory) (entry_count entry_size : ℕ) :
    Option Contents :=
  match clist with
  | .none => none
  | .array => (LockedArray.initClist (some mem) (.ofNat 64 entry_count) (.ofNat 64 entry_size)).map
    .carray
  | .nblist => (NbBoundedList.initClist (some mem) (.ofNat 64 entry_count)
    (.ofNat 64 entry_size)).map .nbblist

lemma initContents_isSome {clist : ClistBuild} (hc : clist ≠ .none) (mem : Memory)
    (entry_count entry_size : ℕ) : ∃ l, initContents clist mem entry_count entry_size = some l := by
  cases clist with
  | none => exact absurd rfl hc
  | array | nblist => exact ⟨_,rfl⟩

/-- The slot of sample `i` in a list of `n` entries of `s` bytes. -/
def slot (clist : ClistBuild) (n s i : ℕ) : ℕ :=
  match clist with
  | .none => 0
  | .array => s * (i % LockedArray.slots n s)
  | .nblist => s * (i*s % n)

/-- How many samples are stored before a slot is used again. -/
def period (clist : ClistBuild) (n s : ℕ) : ℕ :=
  match clist with
  | .none => 0
  | .array => LockedArray.slots n s
  | .nblist => n / n.gcd s

/-- One megabyte of samples is all there to be used in one build, a hundredth of it in the other;
the list of a task has twice and seventy times as many entries as are used. -/
example : GLOBAL_BUFFER_SIZE / sizeofPmcsData = 11915 ∧ period .nblist 11915 88 = 11915 ∧
    period .array 11915 88 = 137 ∧ LOCAL_BUFFER_SIZE / sizeofProcData = 682 ∧
    period .nblist 682 96 = 341 ∧ period .array 682 96 = 9 := by decide

section Slots
variable {n s : ℕ} (hn : 0 < n) (hs : 0 < s) (clist : ClistBuild)
include hn hs

lemma slot_inside (i : ℕ) : slot clist n s i + s ≤ n*s := by
  have hentry : ∀ r < n, s*r + s ≤ n*s := by
    intro r hr
    rw [← Nat.mul_succ,Nat.mul_comm]
    exact Nat.mul_le_mul_right s hr
  cases clist with
  | none =>
    rw [slot,Nat.zero_add]
    exact Nat.le_mul_of_pos_left s hn
  | array =>
    apply hentry
    exact (Nat.mod_lt i (Nat.succ_pos _)).trans_le (LockedArray.slots_le hn hs)
  | nblist => exact hentry _ (Nat.mod_lt _ hn)

omit hn hs in
lemma dvd_slot (i : ℕ) : s ∣ slot clist n s i := by
  cases clist with
  | none => exact Nat.dvd_zero s
  | array | nblist => exact Nat.dvd_mul_right ..

variable {clist} in
lemma slot_eq_iff (hc : clist ≠ .none) (i j : ℕ) : slot clist n s i = slot clist n s j ↔
    i % period clist n s = j % period clist n s := by
  cases clist with
  | none => exact absurd rfl hc
  | array => exact Nat.mul_right_inj hs.ne'
  | nblist => exact (Nat.mul_right_inj hs.ne').trans (mul_mod_eq_iff hn i j)

end Slots

section Kept
variable {n s : ℕ} (hn : 0 < n) (hs : 0 < s) (hsize : n*s < 2^31) {mem : Memory}
  {buckets : List Memory}
include hn hs hsize

lemma toNat_sizes : (BitVec.ofNat 64 n).toNat = n ∧ (BitVec.ofNat 64 s).toNat = s := by
  have hnle := Nat.le_mul_of_pos_right n hs
  have hsle := Nat.le_mul_of_pos_left s hn
  rw [BitVec.toNat_ofNat,BitVec.toNat_ofNat]
  exact ⟨Nat.mod_eq_of_lt (by omega),Nat.mod_eq_of_lt (by omega)⟩

lemma carray_buf {l : LockedArray.Carray}
    (hl : LockedArray.initClist (some mem) (.ofNat 64 n) (.ofNat 64 s) = some l) :
    (buckets.foldl LockedArray.writeClist l).buf = writes s (slot .array n s) 0 l.buf buckets := by
  obtain ⟨hn',hs'⟩ := toNat_sizes hn hs hsize
  have hwritten := LockedArray.written_init hl
  apply foldl_eq_writes_of_slot buckets hwritten
  intro i _ l x h
  rw [← hn'] at hn
  rw [← hs'] at hs
  rw [← hn',← hs'] at hsize
  refine ⟨h.step hn hs hsize x,?_⟩
  rw [LockedArray.writeClist_buf,h.entry_eq hn hs hsize,h.stride,hn',hs']
  rfl

/-- And those of the other list, as long as TAIL has not wrapped. -/
lemma nbblist_buf {l : NbBoundedList.Nbblist}
    (hl : NbBoundedList.initClist (some mem) (.ofNat 64 n) (.ofNat 64 s) = some l)
    (hwrap : buckets.length * s < 2^32) :
    (buckets.foldl NbBoundedList.writeClist l).buf =
      writes s (slot .nblist n s) 0 l.buf buckets := by
  obtain ⟨hn',hs'⟩ := toNat_sizes hn hs hsize
  have hwritten := NbBoundedList.written_init hl
  apply foldl_eq_writes_of_slot buckets hwritten
  intro i hi l x h
  have hlt : (i + 1) * (BitVec.ofNat 64 s).toNat < 2^32 := by
    rw [hs']
    exact (Nat.mul_le_mul_right s (by omega)).trans_lt hwrap
  refine ⟨h.step x hlt,?_⟩
  rw [NbBoundedList.writeClist_buf,h.entry_eq hlt,h.stride,hn',hs']
  rfl

/-- The last samples are in their slots, as many as are stored before a slot is used again. -/
theorem Contents.kept {clist : ClistBuild} {l : Contents}
    (hl : initContents clist mem n s = some l)
    (hwrap : clist = .nblist → buckets.length * s < 2^32) {i : ℕ} (hi : i < buckets.length)
    (hlast : buckets.length ≤ i + period clist n s) :
    segment (buckets.foldl (fun l bucket => l.writeClist bucket) l).buf (slot clist n s i) s =
      segment buckets[i] 0 s := by
  have hbuf : (buckets.foldl (fun l bucket => l.writeClist bucket) l).buf =
      writes s (slot clist n s) 0 l.buf buckets := by
    cases clist with
    | none => exact absurd hl.symm (Option.some_ne_none l)
    | array =>
      rw [initContents,Option.map_eq_some_iff] at hl
      obtain ⟨l,hinit,rfl⟩ := hl
      rw [List.foldl_hom Contents.carray (fun _ _ => rfl)]
      exact carray_buf hn hs hsize hinit
    | nblist =>
      rw [initContents,Option.map_eq_some_iff] at hl
      obtain ⟨l,hinit,rfl⟩ := hl
      rw [List.foldl_hom Contents.nbblist (fun _ _ => rfl)]
      exact nbblist_buf hn hs hsize hinit (hwrap rfl)
  have hc : clist ≠ .none := fun hnone => by
    rw [hnone] at hl
    exact absurd hl.symm (Option.some_ne_none l)
  rw [hbuf]
  exact segment_writes_of_period (fun i j _ _ => slot_eq_iff hn hs hc i j)
    (fun i _ => dvd_slot clist i) l.buf hi hlast

end Kept

/-- The globals of sampling, the buffering layer, and the lists by their addresses. -/
structure State (Cpu Task : Type) where
  sampler : Sampler Cpu Task
  buffers : Statics Cpu
  contents : Word → Option Contents

/-- A PMI, a write to the parameter `readable_pmcs`, `register_process`, or one of the callbacks
that create and free a `struct proc_data`; `words` and `mem` are what the allocated blocks held
before. -/
inductive Event (Cpu Task : Type)
  | pmi (e : PmiCall Cpu Task)
  | param (info : Cpuid10) (kstrtoint : ℤ × BitVec 32)
  | register (kmalloc : Option Block) (words : ℕ → Word)
  | attach (kmalloc : Option Block) (words : ℕ → Word) (kvmalloc : Option Word) (mem : Memory)
  | detach (data : Word)

section Step
variable {Cpu Task : Type} (build : Build)

def writeClist (clist : Word) (bucket : Memory) (s : State Cpu Task) : State Cpu Task :=
  { s with
    contents := Function.update s.contents clist
      ((s.contents clist).map (Contents.writeClist bucket)) }

/-- `write_sample` of every policy; `usage` of the system-wide list is left out. -/
def writeSample (cpu : Cpu) (info : Word) (sample : Memory) (s : State Cpu Task) :
    ℤ × State Cpu Task :=
  match build.bufferp with
  | .none => (0,s)
  | .system =>
    if s.buffers.removing then (0,s) else (0,writeClist s.buffers.systemClist sample s)
  | .cpu => (0,writeClist (s.buffers.pcpuClist cpu) sample s)
  | .thread => if info ≠ NULL then (0,writeClist info sample s) else (-EINVAL,s)

/-- A kmalloc'ed `struct proc_data` has some words where its `pmcs` are. -/
def kmallocWords (kmalloc : Option Block) (words : ℕ → Word) (s : Sampler Cpu Task) :
    Sampler Cpu Task :=
  match kmalloc with
  | none => s
  | some b => { s with pmcs := Function.update s.pmcs b.addr words }

variable [DecidableEq Cpu]

/-- `pmi_handler`, with the copy that `write_clist` makes from the address of `pmcs` on. -/
def pmi (e : PmiCall Cpu Task) (s : State Cpu Task) : State Cpu Task :=
  let r := s.sampler.pmi e
  let s := { s with sampler := r.2.1 }
  if r.2.2 = [] then s
  else
    (writeSample build e.cpu (s.buffers.heap.clist e.call.procData)
      (LittleEndian.bytes 8 (s.sampler.pmcs e.call.procData)) s).2

def next (s : State Cpu Task) : Event Cpu Task → State Cpu Task
  | .pmi e => pmi build e s
  | .param info kstrtoint => { s with sampler := (s.sampler.readablePmcsSet info kstrtoint).2 }
  | .register kmalloc words =>
    { s with
      sampler := kmallocWords kmalloc words s.sampler
      buffers := { s.buffers with heap := (kmalloc.map s.buffers.heap.kmalloc).getD s.buffers.heap } }
  | .attach kmalloc words kvmalloc mem =>
    { sampler := kmallocWords kmalloc words s.sampler
      buffers := { s.buffers with
        heap := (clientHookOnAttach build kmalloc kvmalloc s.buffers.heap).1 }
      contents := match build.bufferp,kmalloc,kvmalloc with
        | .thread,some _,some list => Function.update s.contents list
          (initContents build.clist mem (LOCAL_BUFFER_SIZE / sizeofProcData) sizeofProcData)
        | _,_,_ => s.contents }
  | .detach data =>
    let heap := clientHookOnDetach build s.buffers.heap data
    { s with
      buffers := { s.buffers with heap }
      contents := fun a => if heap.lists a = none then none else s.contents a }

/-- The lists in use are those that the heap holds. -/
def start (sampler : Sampler Cpu Task) (buffers : Statics Cpu) (mem : Word → Memory) :
    State Cpu Task :=
  { sampler
    buffers
    contents := fun a =>
      (buffers.heap.lists a).bind fun l => initContents build.clist (mem a) l.len l.stride }

end Step

/-- The interrupt becomes a sample. -/
def Taken {Cpu Task : Type} (e : PmiCall Cpu Task) : Prop :=
  e.globalStatus ≠ 0 ∧ e.call.procData ≠ NULL

instance {Cpu Task : Type} : DecidablePred (@Taken Cpu Task) := fun _ =>
  inferInstanceAs (Decidable (_ ∧ _))

/-- The counters that a call has read, `readable_pmcs` general ones among them, in a sample that
lies at `d`. -/
def Holds (nr : ℕ) (m : Memory) (d : ℕ) (call : Snapshot × BitVec 32) : Prop :=
  (∀ pmc < nr, LittleEndian.word 8 m (d + 8*(Counter.fixed pmc).word) =
      readFixedPmc call.1.rdpmc pmc) ∧
    ∀ pmc < call.2.toInt.toNat, LittleEndian.word 8 m (d + 8*(Counter.general pmc).word) =
      readGeneralPmc call.1.rdpmc (pmc &&& 1)

/-- The bytes of a call's sample, with no more general counters than there is room for. -/
def Carries (nr : ℕ) (m : Memory) (call : Snapshot × BitVec 32) : Prop :=
  Holds nr m 0 call ∧ call.2.toInt ≤ 8

/-- CPUID has answered, and the arrays of the sample are as long as the loops. -/
structure Ready {Cpu Task : Type} (nr : ℕ) (s : Sampler Cpu Task) : Prop where
  read : s.pmu.machineInfoRead = true
  fixed : s.pmu.gblNrPmcFixed.toNat = nr
  three : nr ≤ 3
  eight : s.readablePmcs.toInt ≤ 8

section Sampler
variable {Cpu Task : Type} {s : Sampler Cpu Task}

/-- The general counters end up behind the fixed ones, each in its place. -/
lemma copied_general {call : Snapshot} (hfixed : s.pmu.gblNrPmcFixed.toNat ≤ 3) {pmc : ℕ}
    (hpmc : pmc < s.readablePmcs.toInt.toNat) :
    s.copied call (Counter.general pmc).word = readGeneralPmc call.rdpmc (pmc &&& 1) := by
  apply Update.stores_of_agree
  · intro st hst hword
    obtain ⟨⟨counter,value⟩,hmem,rfl⟩ := List.mem_map.mp hst
    cases List.mem_append.mp hmem with
    | inl hmem =>
      obtain ⟨pmc',hlt,heq⟩ := List.mem_map.mp hmem
      obtain ⟨rfl,rfl⟩ := Prod.mk.inj heq
      have hword' : pmc' = 3 + pmc := hword
      have hlt' := List.mem_range.mp hlt
      omega
    | inr hmem =>
      obtain ⟨pmc',-,heq⟩ := List.mem_map.mp hmem
      obtain ⟨rfl,rfl⟩ := Prod.mk.inj heq
      obtain rfl : pmc' = pmc := Nat.add_left_cancel hword
      rfl
  · refine ⟨(3 + pmc,readGeneralPmc call.rdpmc (pmc &&& 1)),List.mem_map.mpr
      ⟨(.general pmc,readGeneralPmc call.rdpmc (pmc &&& 1)),?_,rfl⟩,rfl⟩
    exact List.mem_append_right _ (List.mem_map.mpr ⟨pmc,List.mem_range.mpr hpmc,rfl⟩)

/-- The bytes that `write_clist` finds at the address of `pmcs`. -/
lemma carries_copied {nr : ℕ} (h : Ready nr s) (call : Snapshot) :
    Carries nr (LittleEndian.bytes 8 (s.copied call)) (call,s.readablePmcs) := by
  have hfixed : s.pmu.gblNrPmcFixed.toNat ≤ 3 := h.fixed.trans_le h.three
  refine ⟨⟨?_,?_⟩,h.eight⟩
  · intro pmc hpmc
    rw [Nat.zero_add]
    exact (LittleEndian.word_bytes _ _).trans
      (Sampler.copied_fixed hfixed (hpmc.trans_eq h.fixed.symm))
  · intro pmc hpmc
    rw [Nat.zero_add]
    exact (LittleEndian.word_bytes _ _).trans (copied_general hfixed hpmc)

variable [DecidableEq Cpu]

lemma foldl_access_ready {nr : ℕ} (cpu : Cpu) (call : Snapshot) (accesses : List (Access Task))
    {r : Sampler Cpu Task × List (List Word)} (h : Ready nr r.1) :
    let r' := accesses.foldl (Sampler.access cpu call) r
    Ready nr r'.1 ∧ r'.1.readablePmcs = r.1.readablePmcs := by
  induction accesses generalizing r with
  | nil => exact ⟨h,rfl⟩
  | cons a accesses ih =>
    have hstep : Ready nr (Sampler.access cpu call r a).1 ∧
        (Sampler.access cpu call r a).1.readablePmcs = r.1.readablePmcs := by
      cases a with
      | snapshot task =>
        simp only [Sampler.access,Sampler.snapshotPmc]
        split <;> exact ⟨⟨h.read,h.fixed,h.three,h.eight⟩,rfl⟩
      | _ => exact ⟨⟨h.read,h.fixed,h.three,h.eight⟩,rfl⟩
    obtain ⟨hready,hreadable⟩ := ih hstep.1
    exact ⟨hready,hreadable.trans hstep.2⟩

lemma foldl_rearmAccesses_pmcs (cpu : Cpu) (call : Snapshot) (pmu : Pmu.State Cpu Task)
    (global : Word) (r : Sampler Cpu Task × List (List Word)) :
    ((rearmAccesses pmu global).foldl (Sampler.access cpu call) r).1.pmcs = r.1.pmcs := by
  unfold rearmAccesses
  cases pmu.pmiVector <;> rfl

variable {e : PmiCall Cpu Task}

lemma pmi_samples_eq_nil_iff : (s.pmi e).2.2 = [] ↔ ¬ Taken e := by
  by_cases hglobal : e.globalStatus = 0
  · exact iff_of_true (Sampler.passed_of_eq_zero hglobal).sample fun h => h.1 hglobal
  · rw [(Sampler.sampled_of_ne_zero hglobal).sample,Sampler.snapshotPmc]
    by_cases hdata : e.call.procData = NULL
    · rw [if_pos hdata]
      exact iff_of_true rfl fun h => h.2 hdata
    · rw [if_neg hdata]
      exact iff_of_false (List.cons_ne_nil _ _) fun h => h ⟨hglobal,hdata⟩

lemma pmi_pmcs (h : Taken e) : (s.pmi e).2.1.pmcs e.call.procData = s.copied e.call := by
  rw [Sampler.pmi,pmiAccesses_of_ne_zero s.pmu e.current h.1]
  dsimp only
  rw [List.foldl_append,foldl_rearmAccesses_pmcs]
  simp only [List.foldl_cons,List.foldl_nil,Sampler.access,Sampler.snapshotPmc]
  rw [if_neg h.2]
  dsimp only
  rw [Function.update_self]
  rfl

end Sampler

section Run
variable {Cpu Task : Type}

/-- What a write to the parameter leaves in `readable_pmcs`. -/
def Event.readable (r : BitVec 32) : Event Cpu Task → BitVec 32
  | .param _ kstrtoint => if kstrtoint.1 < 0 then r else kstrtoint.2
  | _ => r

/-- The call of `snapshot_pmc` that is to be found in the list. -/
def Event.sampled (mine : PmiCall Cpu Task → Bool) : Event Cpu Task → Option Snapshot
  | .pmi e => if mine e then some e.call else none
  | _ => none

/-- The calls whose samples a list is for, each with `readable_pmcs` at that time. -/
def calls (mine : PmiCall Cpu Task → Bool) :
    BitVec 32 → List (Event Cpu Task) → List (Snapshot × BitVec 32)
  | _,[] => []
  | r,e :: es => ((e.sampled mine).map fun call => (call,r)).toList ++ calls mine (e.readable r) es

variable (build : Build)

/-- The list that `write_sample` writes to. -/
def target (cpu : Cpu) (info : Word) (s : State Cpu Task) : Option Word :=
  match build.bufferp with
  | .none => none
  | .system => if s.buffers.removing then none else some s.buffers.systemClist
  | .cpu => some (s.buffers.pcpuClist cpu)
  | .thread => if info ≠ NULL then some info else none

lemma writeSample_contents (cpu : Cpu) (info : Word) (sample : Memory) (s : State Cpu Task)
    (a : Word) : (writeSample build cpu info sample s).2.contents a =
      if target build cpu info s = some a then (s.contents a).map (Contents.writeClist sample)
      else s.contents a := by
  have hwrite : ∀ clist, (writeClist clist sample s).contents a =
      if some clist = some a then (s.contents a).map (Contents.writeClist sample)
      else s.contents a := by
    intro clist
    by_cases ha : a = clist
    · rw [ha,if_pos rfl]
      exact Function.update_self ..
    · rw [if_neg fun h => ha (Option.some.inj h).symm]
      exact Function.update_of_ne ha ..
  unfold writeSample target
  cases build.bufferp with
  | none => rfl
  | system =>
    dsimp only
    split
    · rfl
    · exact hwrite _
  | cpu => exact hwrite _
  | thread =>
    dsimp only
    split
    · exact hwrite _
    · rfl

lemma writeSample_frame (cpu : Cpu) (info : Word) (sample : Memory) (s : State Cpu Task) :
    (writeSample build cpu info sample s).2.sampler = s.sampler ∧
      (writeSample build cpu info sample s).2.buffers = s.buffers := by
  unfold writeSample
  cases build.bufferp with
  | none | cpu => exact ⟨rfl,rfl⟩
  | system | thread =>
    dsimp only
    split <;> exact ⟨rfl,rfl⟩

variable [DecidableEq Cpu]

/-- The list that the sample of a PMI goes to. -/
def goesTo (s : State Cpu Task) (e : PmiCall Cpu Task) : Option Word :=
  if Taken e then target build e.cpu (s.buffers.heap.clist e.call.procData) s else none

lemma pmi_contents (s : State Cpu Task) (e : PmiCall Cpu Task) (a : Word) :
    (pmi build e s).contents a =
      if goesTo build s e = some a then
        (s.contents a).map (Contents.writeClist (LittleEndian.bytes 8 (s.sampler.copied e.call)))
      else s.contents a := by
  unfold pmi goesTo
  dsimp only
  by_cases htaken : Taken e
  · rw [if_neg (mt pmi_samples_eq_nil_iff.mp (not_not.mpr htaken)),writeSample_contents,
      pmi_pmcs htaken,if_pos htaken]
    rfl
  · rw [if_pos (pmi_samples_eq_nil_iff.mpr htaken),if_neg htaken,if_neg (Option.some_ne_none a).symm]

lemma pmi_frame (s : State Cpu Task) (e : PmiCall Cpu Task) :
    (pmi build e s).sampler = (s.sampler.pmi e).2.1 ∧ (pmi build e s).buffers = s.buffers := by
  unfold pmi
  dsimp only
  split
  · exact ⟨rfl,rfl⟩
  · exact writeSample_frame ..

/-- The PMIs whose samples go to the list at `a` are those of some kind, and no other step of the
client touches that list. -/
def Routes (mine : PmiCall Cpu Task → Bool) (a : Word) (s : State Cpu Task) :
    Event Cpu Task → Prop
  | .pmi e => goesTo build s e = some a ↔ mine e = true
  | e => (next build s e).contents a = s.contents a

/-- The documented range of the parameter. -/
def InRange : Event Cpu Task → Prop
  | .param _ kstrtoint => ¬ kstrtoint.1 < 0 → kstrtoint.2.toInt ≤ 8
  | _ => True

variable {build} {nr : ℕ} {s : State Cpu Task} {mine : PmiCall Cpu Task → Bool} {a : Word}

variable (build) in
lemma next_ready (h : Ready nr s.sampler) {e : Event Cpu Task} (he : InRange e) :
    Ready nr (next build s e).sampler ∧
      (next build s e).sampler.readablePmcs = e.readable s.sampler.readablePmcs := by
  have hkmalloc : ∀ kmalloc words, Ready nr (kmallocWords kmalloc words s.sampler) ∧
      (kmallocWords kmalloc words s.sampler).readablePmcs = s.sampler.readablePmcs := by
    intro kmalloc words
    cases kmalloc with
    | none => exact ⟨h,rfl⟩
    | some b => exact ⟨⟨h.read,h.fixed,h.three,h.eight⟩,rfl⟩
  cases e with
  | pmi e =>
    simp only [next]
    rw [(pmi_frame build s e).1]
    exact foldl_access_ready _ _ _ h
  | param info kstrtoint =>
    simp only [next,Event.readable,Sampler.readablePmcsSet,getMachineConfiguration,h.read,if_true]
    split
    · exact ⟨⟨h.read,h.fixed,h.three,h.eight⟩,rfl⟩
    · rename_i hret
      exact ⟨⟨h.read,h.fixed,h.three,he hret⟩,rfl⟩
  | register kmalloc words => exact hkmalloc kmalloc words
  | attach kmalloc words kvmalloc mem => exact hkmalloc kmalloc words
  | detach data => exact ⟨h,rfl⟩

lemma Routes.step (hready : Ready nr s.sampler) {e : Event Cpu Task}
    (h : Routes build mine a s e) : ∃ buckets : List Memory,
      (next build s e).contents a = (s.contents a).map
          (buckets.foldl fun l bucket => l.writeClist bucket) ∧
        List.Forall₂ (Carries nr) buckets
          ((e.sampled mine).map fun call => (call,s.sampler.readablePmcs)).toList := by
  cases e with
  | pmi e =>
    have hcontents := pmi_contents build s e a
    by_cases hmine : mine e = true
    · rw [if_pos (h.mpr hmine)] at hcontents
      refine ⟨[LittleEndian.bytes 8 (s.sampler.copied e.call)],hcontents,?_⟩
      rw [Event.sampled,if_pos hmine]
      exact .cons (carries_copied hready e.call) .nil
    · rw [if_neg (mt h.mp hmine)] at hcontents
      refine ⟨[],hcontents.trans Option.map_id'.symm,?_⟩
      rw [Event.sampled,if_neg hmine]
      exact .nil
  | param | register | attach | detach => exact ⟨[],Eq.trans h Option.map_id'.symm,.nil⟩

/-- In a run whose steps are routed, the list has been written with the samples of the calls it is
for, in their order, and with nothing else. -/
theorem run_contents {I : State Cpu Task → Prop} {pre : State Cpu Task → Event Cpu Task → Prop}
    (hI : ∀ s e, I s → pre s e → I (next build s e)) (hready : ∀ s, I s → Ready nr s.sampler)
    (hroutes : ∀ s e, I s → pre s e → Routes build mine a s e ∧ InRange e)
    {es : List (Event Cpu Task)} (hs : I s) (hes : Admits (next build) pre s es) :
    ∃ buckets : List Memory,
      (es.foldl (next build) s).contents a = (s.contents a).map
          (buckets.foldl fun l bucket => l.writeClist bucket) ∧
        List.Forall₂ (Carries nr) buckets (calls mine s.sampler.readablePmcs es) := by
  induction es generalizing s with
  | nil => exact ⟨[],Option.map_id'.symm,.nil⟩
  | cons e es ih =>
    obtain ⟨he,hrest⟩ := hes
    obtain ⟨hroute,hrange⟩ := hroutes s e hs he
    obtain ⟨first,hfirst,hholds⟩ := hroute.step (hready s hs)
    obtain ⟨buckets,hbuckets,hall⟩ := ih (hI s e hs he) hrest
    refine ⟨first ++ buckets,?_,?_⟩
    · rw [List.foldl_cons,hbuckets,hfirst,Option.map_map]
      congr 1
      funext l
      exact List.foldl_append.symm
    · rw [(next_ready build (hready s hs) hrange).2] at hall
      exact List.rel_append hholds hall

end Run

/-- A list of `n` entries of `s` bytes keeps the last samples of its calls, as many as are stored
before a slot is used again: each is there with all its counters, inside the list, and apart from
the others. -/
structure Keeps (clist : ClistBuild) (n s nr : ℕ) (log : List (Snapshot × BitVec 32))
    (buf : Memory) : Prop where
  holds : ∀ i, (hi : i < log.length) → log.length ≤ i + period clist n s →
    Holds nr buf (slot clist n s i) log[i]
  inside : ∀ i, slot clist n s i + s ≤ n*s
  apart : ∀ i j, i < j → j < i + period clist n s → Apart s (slot clist n s j) (slot clist n s i)

/-- A list that was made in a block that held `mem` and has then been written to for these calls,
one after the other, and for nothing else. -/
structure Records (clist : ClistBuild) (mem : Memory) (n s nr : ℕ)
    (log : List (Snapshot × BitVec 32)) (l : Contents) : Prop where
  written : ∃ first buckets, initContents clist mem n s = some first ∧
    List.Forall₂ (Carries nr) buckets log ∧
      l = buckets.foldl (fun l bucket => l.writeClist bucket) first
  keeps : Keeps clist n s nr log l.buf

section Keeps
variable {n s nr : ℕ} {clist : ClistBuild}

/-- The counters are in the first 88 bytes of an entry. -/
lemma Carries.of_segment {m m' : Memory} {d : ℕ} {call : Snapshot × BitVec 32}
    (hm : Carries nr m call) (hnr : nr ≤ 3) (hs : sizeofPmcsData ≤ s)
    (h : segment m' d s = segment m 0 s) : Holds nr m' d call := by
  obtain ⟨⟨hfixed,hgeneral⟩,hcall⟩ := hm
  have hword : ∀ k < 11, LittleEndian.word 8 m' (d + 8*k) = LittleEndian.word 8 m (0 + 8*k) := by
    intro k hk
    apply LittleEndian.word_congr
    intro i hi
    have hsize : sizeofPmcsData = 88 := rfl
    rw [Nat.add_assoc,Nat.add_assoc]
    exact apply_of_segment_eq h (by omega)
  constructor
  · intro pmc hpmc
    rw [hword (Counter.fixed pmc).word (show pmc < 11 by omega)]
    exact hfixed pmc hpmc
  · intro pmc hpmc
    rw [hword (Counter.general pmc).word (show 3 + pmc < 11 by omega)]
    exact hgeneral pmc hpmc

/-- What the writes of a run leave in a list. -/
theorem records_of_contents (hn : 0 < n) (hsize : n*s < 2^31)
    (hs : sizeofPmcsData ≤ s) (hnr : nr ≤ 3) {mem : Memory} {l : Contents}
    (hl : initContents clist mem n s = some l) {buckets : List Memory}
    {log : List (Snapshot × BitVec 32)} (hholds : List.Forall₂ (Carries nr) buckets log)
    (hwrap : clist = .nblist → log.length * s < 2^32) :
    Records clist mem n s nr log (buckets.foldl (fun l bucket => l.writeClist bucket) l) := by
  have hs' : 0 < s := Nat.lt_of_lt_of_le (by decide) hs
  have hc : clist ≠ .none := fun hnone => by
    rw [hnone] at hl
    exact absurd hl.symm (Option.some_ne_none l)
  have hlen := hholds.length_eq
  rw [← hlen] at hwrap
  refine ⟨⟨l,buckets,hl,hholds,rfl⟩,
    ⟨fun i hi hlast => ?_,slot_inside hn hs' clist,fun i j hij hj => ?_⟩⟩
  · have hi' : i < buckets.length := hi.trans_eq hlen.symm
    have hkept := Contents.kept hn hs' hsize hl hwrap hi' (hlen.trans_le hlast)
    exact (hholds.get hi' hi).of_segment hnr hs hkept
  · exact apart_of_period (fun i j _ _ => slot_eq_iff hn hs' hc i j) (fun i _ => dvd_slot clist i)
      hij (Nat.lt_succ_self j) hj

end Keeps
end PmuMin.Samples
