import PmuMin.Tracker.Hooks
import PmuMin.Library.Update

/-! The blocks the client hands to the tracker, and the callbacks of `client_module.c` that
create and free them, in every build of the buffering layer and of the list. -/
namespace PmuMin.Client

/-- The Makefile's `BUFFERP`. -/
inductive Bufferp | none | system | cpu | thread
  deriving DecidableEq, Repr

/-- The Makefile's `CLIST`. -/
inductive ClistBuild | none | array | nblist
  deriving DecidableEq, Repr

/-- A build of the client; `dummy` is the address of the array that `clist.c` hands out where
`CLIST` is not set. -/
structure Build where
  bufferp : Bufferp
  clist : ClistBuild
  dummy : Word
  deriving DecidableEq, Repr

/-- A detach frees what the `clist` field points to. -/
def Build.freesLists (build : Build) : Bool :=
  build.bufferp == .thread && build.clist != .none

/-- The sizes a list is made with, at the front of `struct carray` and of `struct nbblist`. -/
structure Clist where
  len : ℕ
  stride : ℕ
  deriving DecidableEq, Repr

/-- What `kmalloc` gives: an address, and what the first word of the block held before. -/
structure Block where
  addr : Word
  word : Word
  deriving DecidableEq, Repr

/-- The allocated `struct proc_data` blocks, the word at the `clist` field of each address,
whether it was stored since the block was allocated, and the allocated lists. The heap is corrupted
once an address was given back that is not allocated. -/
structure Heap where
  procData : Word → Bool
  clist : Word → Word
  stored : Word → Bool
  lists : Word → Option Clist
  corrupted : Bool

def PAGE_SIZE : ℕ := 4096
def LOCAL_BUFFER_SIZE : ℕ := PAGE_SIZE * 16

/-- `sizeof(struct pmcs_data)`: 3 fixed and 8 general counters. -/
def sizeofPmcsData : ℕ := 8 * (3 + 8)

/-- `sizeof(struct proc_data)`: a pointer before the counters. -/
def sizeofProcData : ℕ := 8 + sizeofPmcsData

namespace Heap

def empty : Heap := ⟨fun _ => false,fun _ => 0,fun _ => false,fun _ => none,false⟩

def allocated (h : Heap) (p : Word) : Bool := h.procData p || (h.lists p).isSome

/-- A `kmalloc`'ed `struct proc_data`, not written to yet. -/
def kmalloc (h : Heap) (b : Block) : Heap :=
  { h with
    procData := Function.update h.procData b.addr true
    clist := Function.update h.clist b.addr b.word
    stored := Function.update h.stored b.addr false }

/-- `proc_data->clist = list`. -/
def setClist (h : Heap) (proc list : Word) : Heap :=
  { h with
    clist := Function.update h.clist proc list
    stored := Function.update h.stored proc true }

/-- `kfree` and `kvfree`: whatever block lies there is gone. A second free of a block, or one of
an address that was never given out, corrupts the heap. -/
def kfree (h : Heap) (p : Word) : Heap :=
  if p = NULL then h
  else
    { h with
      procData := Function.update h.procData p false
      lists := Function.update h.lists p none
      corrupted := h.corrupted || !h.allocated p }

end Heap

section Functions
variable (build : Build)

/-- `init_clist` of the three list builds. -/
def initClist (kvmalloc : Option Word) (h : Heap) (entry_count entry_size : ℕ) : Heap × Word :=
  match build.clist,kvmalloc with
  | .none,_ => (h,build.dummy)
  | _,none => (h,NULL)
  | _,some list =>
    ({ h with lists := Function.update h.lists list (some ⟨entry_count,entry_size⟩) },list)

def finiClist (h : Heap) (clist : Word) : Heap :=
  match build.clist with
  | .none => h
  | _ => h.kfree clist

def bufferingDynamicInit (kvmalloc : Option Word) (h : Heap) (entry_size : ℕ) : Heap × Word :=
  match build.bufferp with
  | .thread => initClist build kvmalloc h (LOCAL_BUFFER_SIZE / entry_size) entry_size
  | _ => (h,NULL)

def bufferingDynamicFini (h : Heap) (info : Word) : Heap :=
  match build.bufferp with
  | .thread => finiClist build h info
  | _ => h

def clientHookOnAttach (kmalloc : Option Block) (kvmalloc : Option Word) (h : Heap) :
    Heap × Word :=
  match kmalloc with
  | none => (h,NULL)
  | some b =>
    let r := bufferingDynamicInit build kvmalloc (h.kmalloc b) sizeofProcData
    (r.1.setClist b.addr r.2,b.addr)

def clientHookOnDetach (h : Heap) (data : Word) : Heap :=
  if data = NULL then h else (bufferingDynamicFini build h (h.clist data)).kfree data

variable {Task σ : Type} (T : Tracker Task σ)

def registerProcess (kmalloc : Option Block) (ctx : Context) (s : Heap × σ) (task : Task) :
    (Heap × σ) × ℤ :=
  match kmalloc with
  | none => (s,-ENOMEM)
  | some b =>
    let r := T.trackerAdd ctx s.2 task b.addr
    ((s.1.kmalloc b,r.1),r.2)

/-- The list that `snapshot_pmc` passes to `write_sample`, if it gets that far. -/
def snapshotPmc (ctx : Context) (s : Heap × σ) (task : Task) : Option Word :=
  let procData := T.queryDataTracker ctx s.2 task
  if procData = NULL then none else some (s.1.clist procData)

end Functions

section Effects
variable (build : Build) (h : Heap)

theorem Heap.procData_kfree {a : Word} (ha : a ≠ NULL) (p : Word) :
    (h.kfree p).procData a = true ↔ h.procData a = true ∧ a ≠ p := by
  unfold kfree
  by_cases hp : p = NULL
  · rw [if_pos hp,hp]
    exact (and_iff_left ha).symm
  · rw [if_neg hp]
    by_cases hap : a = p <;> simp [hap]

theorem bufferingDynamicFini_eq (info : Word) :
    bufferingDynamicFini build h info = if build.freesLists then h.kfree info else h := by
  obtain ⟨bufferp,clist,dummy⟩ := build
  cases bufferp <;> cases clist <;> rfl

lemma bufferingDynamicInit_of_freesLists {build : Build} (hbuild : build.freesLists = true)
    (kvmalloc : Option Word) (entry_size : ℕ) :
    bufferingDynamicInit build kvmalloc h entry_size =
      match kvmalloc with
      | none => (h,NULL)
      | some list =>
        let len := LOCAL_BUFFER_SIZE / entry_size
        ({ h with lists := Function.update h.lists list (some ⟨len,entry_size⟩) },list) := by
  obtain ⟨bufferp,clist,dummy⟩ := build
  cases bufferp <;> cases clist <;> cases kvmalloc <;> first | rfl | cases hbuild

lemma bufferingDynamicInit_of_keepsLists {build : Build} (hbuild : build.freesLists = false)
    (kvmalloc : Option Word) (entry_size : ℕ) :
    (bufferingDynamicInit build kvmalloc h entry_size).1 = h := by
  obtain ⟨bufferp,clist,dummy⟩ := build
  cases bufferp <;> cases clist <;> cases kvmalloc <;> first | rfl | cases hbuild

/-- A detach frees its block and, in the builds that free lists, whatever the `clist` field of
the block points to. -/
theorem procData_clientHookOnDetach {data a : Word} (hdata : data ≠ NULL) (ha : a ≠ NULL) :
    (clientHookOnDetach build h data).procData a = true ↔
      h.procData a = true ∧ (build.freesLists = true → a ≠ h.clist data) ∧ a ≠ data := by
  rw [clientHookOnDetach,if_neg hdata,Heap.procData_kfree _ ha,bufferingDynamicFini_eq]
  cases build.freesLists with
  | false => simp
  | true => rw [if_pos rfl,Heap.procData_kfree _ ha]; simp [and_assoc]

theorem procData_bufferingDynamicInit (kvmalloc : Option Word) (entry_size : ℕ) :
    (bufferingDynamicInit build kvmalloc h entry_size).1.procData = h.procData := by
  obtain ⟨bufferp,clist,dummy⟩ := build
  cases bufferp <;> cases clist <;> cases kvmalloc <;> rfl

/-- The datum an attach hands to the tracker: its block, or NULL. -/
def datum (kmalloc : Option Block) : Word := (kmalloc.map Block.addr).getD NULL

theorem clientHookOnAttach_snd (kmalloc : Option Block) (kvmalloc : Option Word) :
    (clientHookOnAttach build kmalloc kvmalloc h).2 = datum kmalloc := by
  cases kmalloc <;> rfl

theorem procData_clientHookOnAttach (kmalloc : Option Block) (kvmalloc : Option Word) {a : Word}
    (ha : a ≠ NULL) :
    (clientHookOnAttach build kmalloc kvmalloc h).1.procData a = true ↔
      h.procData a = true ∨ a = datum kmalloc := by
  cases kmalloc with
  | none => simp [clientHookOnAttach,datum,ha]
  | some b =>
    simp only [clientHookOnAttach,Heap.setClist,procData_bufferingDynamicInit,Heap.kmalloc,datum,
      Option.map_some,Option.getD_some]
    by_cases hab : a = b.addr <;> simp [hab]

end Effects

/-- A call of the client, with the outcomes of the allocations it may make. -/
inductive Event (Task : Type)
  | register (task : Task) (kmalloc : Option Block) (ctx : Context)
  | fork (parent child : Task) (kmalloc : Option Block) (kvmalloc : Option Word) (ctx : Context)
  | exit (task : Task) (ctx : Context)
  | pmi (task : Task) (ctx : Context)
  deriving DecidableEq, Repr

/-- The three hooks with the client's callbacks installed; a PMI changes nothing here. -/
def next (build : Build) {Task σ : Type} (T : Tracker Task σ) (s : Heap × σ) :
    Event Task → Heap × σ
  | .register task kmalloc ctx => (registerProcess T kmalloc ctx s task).1
  | .fork parent child kmalloc kvmalloc ctx =>
    trackForkWrapper T (clientHookOnAttach build kmalloc kvmalloc) ctx s parent child
  | .exit task ctx => trackExitWrapper T (clientHookOnDetach build) ctx s task
  | .pmi _ _ => s

/-- An address that the allocator may give out: one that is not allocated, or any if the heap is
corrupted. -/
def Heap.Free (h : Heap) (p : Word) : Prop :=
  p ≠ NULL ∧ (h.corrupted = false → h.procData p = false ∧ h.lists p = none)

instance (h : Heap) : DecidablePred h.Free := fun p =>
  inferInstanceAs (Decidable (p ≠ NULL ∧
    (h.corrupted = false → h.procData p = false ∧ h.lists p = none)))

/-- What the allocator promises: `kmalloc` gives canonical addresses, and no address is given
out twice, as long as the heap is not corrupted. -/
def Allocates {Task σ : Type} (s : Heap × σ) : Event Task → Prop
  | .register _ (some b) _ => Canonical b.addr ∧ s.1.Free b.addr
  | .fork _ _ (some b) none _ => Canonical b.addr ∧ s.1.Free b.addr
  | .fork _ _ (some b) (some list) _ =>
    Canonical b.addr ∧ s.1.Free b.addr ∧ s.1.Free list ∧ list ≠ b.addr
  | _ => True

instance {Task σ : Type} (s : Heap × σ) : @DecidablePred (Event Task) (Allocates s)
  | .register _ (some b) _ | .fork _ _ (some b) none _ =>
    inferInstanceAs (Decidable (Canonical b.addr ∧ s.1.Free b.addr))
  | .fork _ _ (some b) (some list) _ =>
    inferInstanceAs (Decidable (Canonical b.addr ∧ s.1.Free b.addr ∧ s.1.Free list ∧
      list ≠ b.addr))
  | .register _ none _ | .fork _ _ none _ _ | .exit _ _ | .pmi _ _ =>
    inferInstanceAs (Decidable True)

/-- The block of a fork's attach. -/
lemma Allocates.fork {Task σ : Type} {s : Heap × σ} {parent child : Task}
    {kmalloc : Option Block} {kvmalloc : Option Word} {ctx : Context}
    (h : Allocates s (.fork parent child kmalloc kvmalloc ctx)) {b : Block}
    (hb : kmalloc = some b) : Canonical b.addr ∧ s.1.Free b.addr := by
  subst hb
  cases kvmalloc with
  | none => exact h
  | some list => exact ⟨h.1,h.2.1⟩

/-- The datum of a fork, be it NULL. -/
lemma Allocates.datum {Task σ : Type} {s : Heap × σ} {parent child : Task}
    {kmalloc : Option Block} {kvmalloc : Option Word} {ctx : Context}
    (h : Allocates s (.fork parent child kmalloc kvmalloc ctx)) (hsound : s.1.corrupted = false) :
    Canonical (datum kmalloc) ∧
      (Client.datum kmalloc ≠ NULL → s.1.procData (Client.datum kmalloc) = false) := by
  cases kmalloc with
  | none => exact ⟨canonical_NULL,fun hne => absurd rfl hne⟩
  | some b => exact ⟨(h.fork rfl).1,fun _ => ((h.fork rfl).2.2 hsound).1⟩

/-- The list of a fork's attach. -/
lemma Allocates.list {Task σ : Type} {s : Heap × σ} {parent child : Task} {b : Block}
    {kvmalloc : Option Word} {ctx : Context}
    (h : Allocates s (.fork parent child (some b) kvmalloc ctx)) {list : Word}
    (hlist : kvmalloc = some list) : s.1.Free list ∧ list ≠ b.addr := by
  subst hlist
  exact h.2.2

/-- A heap in order: nothing was given back that was not allocated, and no address is that of a
block and of a list. -/
structure Heap.Intact (h : Heap) : Prop where
  sound : h.corrupted = false
  null : h.procData NULL = false
  apart : ∀ a, h.procData a = true → h.lists a = none

lemma Heap.intact_empty : Heap.empty.Intact :=
  ⟨rfl,rfl,fun _ ha => absurd ha Bool.false_ne_true⟩

namespace Heap.Intact
variable {h : Heap} (hi : h.Intact)
include hi

lemma free {p : Word} (hp : h.Free p) : h.procData p = false ∧ h.lists p = none := hp.2 hi.sound

lemma kmalloc {b : Block} (hb : h.Free b.addr) : (h.kmalloc b).Intact where
  sound := hi.sound
  null := (Function.update_of_ne hb.1.symm ..).trans hi.null
  apart := Update.all (P := fun a p => p = true → h.lists a = none) (fun _ => (hi.free hb).2) hi.apart

lemma setClist (proc list : Word) : (h.setClist proc list).Intact := ⟨hi.sound,hi.null,hi.apart⟩

lemma newList {list : Word} (hlist : h.Free list) (c : Clist) :
    Heap.Intact { h with lists := Function.update h.lists list (some c) } where
  sound := hi.sound
  null := hi.null
  apart a ha := by
    have hne : a ≠ list := fun heq => by
      rw [heq,(hi.free hlist).1] at ha
      exact Bool.false_ne_true ha
    exact (Function.update_of_ne hne ..).trans (hi.apart a ha)

lemma not_block {a : Word} (ha : h.lists a ≠ none) : h.procData a = false :=
  Bool.eq_false_of_not_eq_true fun hp => ha (hi.apart a hp)

lemma ne_null {a : Word} (ha : h.procData a = true) : a ≠ NULL := fun heq => by
  rw [heq,hi.null] at ha
  exact Bool.false_ne_true ha

/-- NULL, a block or a list may be freed. -/
lemma kfree {p : Word} (hp : p = NULL ∨ h.allocated p = true) : (h.kfree p).Intact := by
  unfold Heap.kfree
  split
  · exact hi
  · rename_i hne
    refine ⟨?_,?_,Update.rel (R := fun _ q l => q = true → l = none) (fun _ => rfl) hi.apart⟩
    · simp [hi.sound,hp.resolve_left hne]
    · exact (Function.update_of_ne (Ne.symm hne) ..).trans hi.null

lemma bufferingDynamicInit (build : Build) {kvmalloc : Option Word}
    (hlist : ∀ list, kvmalloc = some list → h.Free list) (entry_size : ℕ) :
    (bufferingDynamicInit build kvmalloc h entry_size).1.Intact := by
  cases hbuild : build.freesLists with
  | false =>
    rw [bufferingDynamicInit_of_keepsLists h hbuild]
    exact hi
  | true =>
    rw [bufferingDynamicInit_of_freesLists h hbuild]
    cases kvmalloc with
    | none => exact hi
    | some list => exact hi.newList (hlist list rfl) _

lemma attach (build : Build) {kmalloc : Option Block} {kvmalloc : Option Word}
    (hb : ∀ b, kmalloc = some b → h.Free b.addr ∧
      ∀ list, kvmalloc = some list → h.Free list ∧ list ≠ b.addr) :
    (clientHookOnAttach build kmalloc kvmalloc h).1.Intact := by
  cases kmalloc with
  | none => exact hi
  | some b =>
    obtain ⟨hfree,hlist⟩ := hb b rfl
    refine ((hi.kmalloc hfree).bufferingDynamicInit build (fun list hsome => ?_) _).setClist ..
    obtain ⟨hfree',hne⟩ := hlist list hsome
    refine ⟨hfree'.1,fun _ => ⟨?_,(hi.free hfree').2⟩⟩
    exact (Function.update_of_ne hne ..).trans (hi.free hfree').1

end Heap.Intact

/-- What the `clist` field of a block points to may be freed along with it. -/
def Heap.Detachable (build : Build) (h : Heap) (data : Word) : Prop :=
  data ≠ NULL → build.freesLists = true → h.clist data = NULL ∨ (h.lists (h.clist data)).isSome

instance (build : Build) (h : Heap) (data : Word) : Decidable (h.Detachable build data) :=
  inferInstanceAs (Decidable (_ → _ → _ ∨ _))

/-- `buffering_dynamic_fini` frees no block. -/
lemma Heap.Intact.bufferingDynamicFini {h : Heap} (hi : h.Intact) {build : Build} {data : Word}
    (hdata : data ≠ NULL) (hlist : h.Detachable build data) :
    (bufferingDynamicFini build h (h.clist data)).Intact ∧
      (bufferingDynamicFini build h (h.clist data)).procData = h.procData := by
  rw [bufferingDynamicFini_eq]
  split
  · rename_i hf
    refine ⟨hi.kfree ((hlist hdata hf).imp_right fun hsome => ?_),?_⟩
    · rw [Heap.allocated,hsome,Bool.or_true]
    · have hout : h.procData (h.clist data) = false := by
        cases hlist hdata hf with
        | inl hnull => rw [hnull,hi.null]
        | inr hsome => exact hi.not_block (Option.isSome_iff_ne_none.mp hsome)
      unfold Heap.kfree
      split
      · rfl
      · rw [← hout]
        exact Function.update_eq_self ..
  · exact ⟨hi,rfl⟩

/-- A live block may be detached, if its list may be freed. -/
lemma Heap.Intact.detach {h : Heap} (hi : h.Intact) {build : Build} {data : Word}
    (hlive : data ≠ NULL → h.procData data = true) (hlist : h.Detachable build data) :
    (clientHookOnDetach build h data).Intact := by
  unfold clientHookOnDetach
  split
  · exact hi
  · rename_i hne
    obtain ⟨hfini,hproc⟩ := hi.bufferingDynamicFini hne hlist
    refine hfini.kfree (.inr ?_)
    rw [Heap.allocated,hproc,hlive hne]
    rfl

end PmuMin.Client
