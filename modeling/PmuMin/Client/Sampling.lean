import PmuMin.Client.Ownership
import PmuMin.Library.Update

/-! Which list a sample goes to, and which list a detach frees, in the builds that keep one list
for each task. -/
namespace PmuMin.Client
open Machine Occurrences

section Ledger
variable {Task σ : Type} {T : Tracker Task σ} (L : Ledger T)

/-- A sample may be written to the list. -/
def Fits (h : Heap) (list : Word) : Prop :=
  list = NULL ∨ ∃ c ∈ h.lists list, c.stride = sizeofPmcsData

instance (h : Heap) : DecidablePred (Fits h) := fun list =>
  inferInstanceAs (Decidable (list = NULL ∨ ∃ c ∈ h.lists list, c.stride = sizeofPmcsData))

/-- What a PMI and a detach may find in the `clist` field: NULL or an allocated list, and for a
PMI one whose entries have the size of the sample. -/
def ListValid (s : Heap × σ) : Event Task → Prop
  | .exit task _ =>
    let data := L.first s.2 task
    data ≠ NULL → s.1.clist data = NULL ∨ (s.1.lists (s.1.clist data)).isSome
  | .pmi task ctx => ∀ list ∈ snapshotPmc T ctx s task, Fits s.1 list
  | _ => True

instance (s : Heap × σ) : DecidablePred (ListValid L s)
  | .register .. | .fork .. => inferInstanceAs (Decidable True)
  | .exit task _ => inferInstanceAs (Decidable (L.first s.2 task ≠ NULL →
      s.1.clist (L.first s.2 task) = NULL ∨ (s.1.lists (s.1.clist (L.first s.2 task))).isSome))
  | .pmi task ctx => Option.decidableForallMem (snapshotPmc T ctx s task)

/-- The `clist` field that a detach reads was stored by an attach, or the memory that
`register_process` got held NULL there. -/
def Initialised (s : Heap × σ) : Event Task → Prop
  | .exit task _ =>
    let data := L.first s.2 task
    data ≠ NULL → s.1.stored data = true ∨ s.1.clist data = NULL
  | _ => True

/-- No list was made for the task that a PMI interrupts. -/
def Listless (s : Heap × σ) : Event Task → Prop
  | .pmi task ctx =>
    let data := T.queryDataTracker ctx s.2 task
    data ≠ NULL → s.1.clist data = NULL
  | _ => True

instance (s : Heap × σ) : DecidablePred (Initialised L s)
  | .exit task _ => inferInstanceAs (Decidable (L.first s.2 task ≠ NULL →
      s.1.stored (L.first s.2 task) = true ∨ s.1.clist (L.first s.2 task) = NULL))
  | .register .. | .fork .. | .pmi .. => inferInstanceAs (Decidable True)

instance (s : Heap × σ) : DecidablePred (Listless (T := T) s)
  | .pmi task ctx => inferInstanceAs (Decidable (T.queryDataTracker ctx s.2 task ≠ NULL →
      s.1.clist (T.queryDataTracker ctx s.2 task) = NULL))
  | .register .. | .fork .. | .exit .. => inferInstanceAs (Decidable True)

/-- The tracker holds the block `a`, and an attach stored the list `list` in it. -/
def Refers (h : Heap) (s : σ) (a list : Word) : Prop :=
  (a ≠ NULL ∧ 0 < L.held s a) ∧ (h.stored a = true ∧ h.clist a = list) ∧ list ≠ NULL

/-- The heap is in order, every held block is allocated and held once, and every list stored by an
attach is allocated and belongs to one block. -/
structure Sound (h : Heap) (s : σ) : Prop where
  valid : L.Valid s
  intact : h.Intact
  live : ∀ a, a ≠ NULL → L.held s a ≤ if h.procData a then 1 else 0
  stride : ∀ l c, h.lists l = some c → c.stride = sizeofProcData
  list : ∀ a l, Refers L h s a l → h.lists l ≠ none
  own : ∀ a b l, Refers L h s a l → Refers L h s b l → a = b

variable {L}

lemma Sound.procData_of_held {h : Heap} {s : σ} (hs : Sound L h s) {a : Word} (ha : a ≠ NULL)
    (hheld : 0 < L.held s a) : h.procData a = true := by
  have hlive := hs.live a ha
  by_contra hp
  rw [if_neg hp] at hlive
  omega

/-- A block whose `clist` field was not stored refers to no list. -/
lemma Sound.kmalloc {h : Heap} {s : σ} (hs : Sound L h s) {b : Block} (hcan : Canonical b.addr)
    (hfree : h.Free b.addr) (ctx : Context) (task : Task) :
    Sound L (h.kmalloc b) (T.trackerAdd ctx s task b.addr).1 := by
  obtain ⟨hproc,hlist⟩ := hs.intact.free hfree
  have hadd := fun a (ha : a ≠ NULL) => L.held_add_le hs.valid ctx task hcan ha
  have hrefers : ∀ a l, Refers L (h.kmalloc b) (T.trackerAdd ctx s task b.addr).1 a l →
      Refers L h s a l := by
    rintro a l ⟨⟨ha,hheld⟩,⟨hstored,hclist⟩,hl⟩
    have hab : a ≠ b.addr := fun hab => by simp [Heap.kmalloc,hab] at hstored
    have hle := hadd a ha
    rw [hit_of_ne hab.symm] at hle
    simp only [Heap.kmalloc,Function.update_of_ne hab] at hstored hclist
    exact ⟨⟨ha,by omega⟩,⟨hstored,hclist⟩,hl⟩
  refine ⟨L.valid_add hs.valid ctx task _,hs.intact.kmalloc hfree,fun a ha => ?_,hs.stride,
    fun a l hr => hs.list a l (hrefers a l hr),
    fun a a' l hr hr' => hs.own a a' l (hrefers a l hr) (hrefers a' l hr')⟩
  have hle := hadd a ha
  have hlive := hs.live a ha
  by_cases hab : a = b.addr
  · subst hab
    rw [hproc] at hlive
    simp only [hit_self,Bool.false_eq_true,if_false] at hle hlive
    simp only [Heap.kmalloc,Function.update_self,if_true]
    omega
  · rw [hit_of_ne (Ne.symm hab)] at hle
    simp only [Heap.kmalloc,Function.update_of_ne hab]
    omega

lemma Sound.mono {h : Heap} {s s' : σ} (hs : Sound L h s) (hvalid : L.Valid s')
    (hle : ∀ a, a ≠ NULL → L.held s' a ≤ L.held s a) : Sound L h s' := by
  have hrefers : ∀ a l, Refers L h s' a l → Refers L h s a l := by
    rintro a l ⟨⟨ha,hheld⟩,hclist,hl⟩
    exact ⟨⟨ha,hheld.trans_le (hle a ha)⟩,hclist,hl⟩
  exact ⟨hvalid,hs.intact,fun a ha => (hle a ha).trans (hs.live a ha),hs.stride,
    fun a l hr => hs.list a l (hrefers a l hr),
    fun a b l ha hb => hs.own a b l (hrefers a l ha) (hrefers b l hb)⟩

/-- A list of entries as large as a `proc_data` is made at a free address. -/
lemma Sound.newList {h : Heap} {s : σ} (hs : Sound L h s) {list : Word} (hfree : h.Free list)
    (len : ℕ) :
    let h' := { h with lists := Function.update h.lists list (some ⟨len,sizeofProcData⟩) }
    Sound L h' s ∧ ∀ a, ¬ Refers L h' s a list := by
  intro h'
  obtain ⟨hproc,hlist⟩ := hs.intact.free hfree
  refine ⟨⟨hs.valid,hs.intact.newList hfree _,hs.live,
    Update.all (P := fun _ o => ∀ c, o = some c → Clist.stride c = sizeofProcData) (fun c hc => ?_)
      hs.stride,fun a l hr => ?_,hs.own⟩,fun a hr => hs.list a list hr hlist⟩
  · exact (congrArg Clist.stride (Option.some.inj hc)).symm
  · have hne : l ≠ list := fun hll => hs.list a l hr (hll ▸ hlist)
    simpa [h',Function.update_of_ne hne] using hs.list a l hr

/-- An attach stores NULL, or a list that no block refers to. -/
lemma Sound.setClist {h : Heap} {s : σ} (hs : Sound L h s) (p : Word) {list : Word}
    (hnew : list ≠ NULL → h.lists list ≠ none ∧ ∀ a, ¬ Refers L h s a list) :
    Sound L (h.setClist p list) s := by
  have hrefers : ∀ a l, Refers L (h.setClist p list) s a l →
      (a = p ∧ l = list ∧ list ≠ NULL) ∨ Refers L h s a l := by
    rintro a l ⟨hheld,⟨hstored,hclist⟩,hl⟩
    by_cases hap : a = p
    · subst hap
      simp only [Heap.setClist,Function.update_self] at hclist
      exact .inl ⟨rfl,hclist.symm,hclist ▸ hl⟩
    · simp only [Heap.setClist,Function.update_of_ne hap] at hstored hclist
      exact .inr ⟨hheld,⟨hstored,hclist⟩,hl⟩
  refine ⟨hs.valid,hs.intact.setClist ..,hs.live,hs.stride,fun a l hr => ?_,fun a b l ha hb => ?_⟩
  · rcases hrefers a l hr with ⟨-,rfl,hl⟩ | hr
    · exact (hnew hl).1
    · exact hs.list a l hr
  · rcases hrefers a l ha with ⟨rfl,rfl,hl⟩ | ha'
    · rcases hrefers b _ hb with ⟨rfl,-,-⟩ | hb'
      · rfl
      · exact absurd hb' ((hnew hl).2 b)
    · rcases hrefers b l hb with ⟨-,rfl,hl⟩ | hb'
      · exact absurd ha' ((hnew hl).2 a)
      · exact hs.own a b l ha' hb'

/-- What is neither held nor referred to may be freed. -/
lemma Sound.kfree {h : Heap} {s : σ} (hs : Sound L h s) {p : Word}
    (hp : p = NULL ∨ h.allocated p = true) (hheld : p ≠ NULL → L.held s p = 0) (hlist : ∀ a, ¬ Refers L h s a p) :
    Sound L (h.kfree p) s := by
  have hintact := hs.intact.kfree hp
  by_cases hp : p = NULL
  · rwa [Heap.kfree,if_pos hp]
  · have hrefers : ∀ a l, Refers L (h.kfree p) s a l → Refers L h s a l := fun a l hr => by
      rwa [Heap.kfree,if_neg hp] at hr
    rw [Heap.kfree,if_neg hp] at hrefers hintact ⊢
    refine ⟨hs.valid,hintact,
      Update.all (P := fun a (q : Bool) => a ≠ NULL → L.held s a ≤ if q then 1 else 0) (fun _ => ?_) hs.live,
      Update.all (P := fun _ o => ∀ c, o = some c → Clist.stride c = sizeofProcData)
        (fun c hc => by cases hc) hs.stride,fun a l hr => ?_,
      fun a b l ha hb => hs.own a b l (hrefers a l ha) (hrefers b l hb)⟩
    · rw [hheld hp]
      exact Nat.zero_le _
    · have hlp : l ≠ p := fun hlp => hlist a (hlp ▸ hrefers a l hr)
      simpa [Function.update_of_ne hlp] using hs.list a l (hrefers a l hr)

section Step
variable {build : Build} (hbuild : build.freesLists = true)
include hbuild

lemma Sound.fork {h : Heap} {s : σ} (hs : Sound L h s) {parent child : Task}
    {kmalloc : Option Block} {kvmalloc : Option Word} {ctx : Context}
    (he : Allocates (h,s) (.fork parent child kmalloc kvmalloc ctx)) :
    Sound L (clientHookOnAttach build kmalloc kvmalloc h).1
      (T.trackerAdd ctx s child (datum kmalloc)).1 := by
  cases kmalloc with
  | none =>
    apply hs.mono (L.valid_add hs.valid ctx child _)
    intro a ha
    have hle := L.held_add_le hs.valid ctx child canonical_NULL ha
    rwa [hit_of_ne ha.symm] at hle
  | some b =>
    have hk := hs.kmalloc (he.fork rfl).1 (he.fork rfl).2 ctx child
    simp only [clientHookOnAttach,bufferingDynamicInit_of_freesLists _ hbuild]
    cases kvmalloc with
    | none => exact hk.setClist _ fun hne => absurd rfl hne
    | some list =>
      obtain ⟨hfree,hne⟩ := he.list rfl
      obtain ⟨hproc,hlist⟩ := hs.intact.free hfree
      have hfree' : (h.kmalloc b).Free list :=
        ⟨hfree.1,fun _ => ⟨(Function.update_of_ne hne ..).trans hproc,hlist⟩⟩
      obtain ⟨hl,hnew⟩ := hk.newList hfree' (LOCAL_BUFFER_SIZE / sizeofProcData)
      exact hl.setClist _ fun _ => ⟨by simp,hnew⟩

lemma Sound.exit {h : Heap} {s : σ} (hs : Sound L h s) {task : Task} (ctx : Context)
    (he : Initialised L (h,s) (.exit task ctx)) :
    Sound L (clientHookOnDetach build h (L.first s task)) (T.trackerDel ctx s task).1 := by
  have hdel := fun a (ha : a ≠ NULL) => L.held_del hs.valid ctx task ha
  have hs' : Sound L h (T.trackerDel ctx s task).1 :=
    hs.mono (L.valid_del hs.valid ctx task) fun a ha => by have := hdel a ha; omega
  by_cases hfirst : L.first s task = NULL
  · rwa [clientHookOnDetach,if_pos hfirst]
  · have hpos := L.held_first hs.valid hfirst
    have hproc := hs.procData_of_held hfirst hpos
    have hgone : L.held (T.trackerDel ctx s task).1 (L.first s task) = 0 := by
      have hheld := hdel _ hfirst
      have hlive := hs.live _ hfirst
      rw [if_pos hproc] at hlive
      rw [hit_self] at hheld
      omega
    have hlist : h.clist (L.first s task) ≠ NULL →
        Refers L h s (L.first s task) (h.clist (L.first s task)) := fun hne =>
      ⟨⟨hfirst,hpos⟩,⟨(he hfirst).resolve_right hne,rfl⟩,hne⟩
    have hdetachable : h.Detachable build (L.first s task) := fun _ _ => by
      refine or_iff_not_imp_left.mpr fun hne => ?_
      exact Option.isSome_iff_ne_none.mpr (hs.list _ _ (hlist hne))
    obtain ⟨-,hkept⟩ := hs.intact.bufferingDynamicFini hfirst hdetachable
    rw [bufferingDynamicFini_eq,if_pos hbuild] at hkept
    rw [clientHookOnDetach,if_neg hfirst,bufferingDynamicFini_eq,if_pos hbuild]
    have hfini : Sound L (h.kfree (h.clist (L.first s task))) (T.trackerDel ctx s task).1 := by
      refine hs'.kfree ((hdetachable hfirst hbuild).imp_right fun hsome => ?_) (fun hne => ?_)
        fun a hr => ?_
      · rw [Heap.allocated,hsome,Bool.or_true]
      · by_contra hheld
        have hp := hs'.procData_of_held hne (Nat.pos_of_ne_zero hheld)
        exact hs.list _ _ (hlist hne) (hs.intact.apart _ hp)
      · obtain ⟨⟨ha,hheld⟩,hclist,hl⟩ := hr
        have hle := hdel a ha
        have haf := hs.own a _ _ ⟨⟨ha,by omega⟩,hclist,hl⟩ (hlist hl)
        rw [haf,hgone] at hheld
        exact absurd hheld (lt_irrefl 0)
    rw [← hkept] at hproc
    exact hfini.kfree (.inr (by rw [Heap.allocated,hproc]; rfl)) (fun _ => hgone) fun a hr =>
      hfini.list a _ hr (hfini.intact.apart _ hproc)

theorem Sound.next {s : Heap × σ} (hs : Sound L s.1 s.2) {e : Event Task} (he : Allocates s e)
    (hinit : Initialised L s e) :
    Sound L (next build T s e).1 (next build T s e).2 := by
  cases e with
  | register task kmalloc ctx =>
    cases kmalloc with
    | none => exact hs
    | some b => exact hs.kmalloc he.1 he.2 ctx task
  | fork parent child kmalloc kvmalloc ctx =>
    rw [next_fork]
    split
    · exact hs.fork hbuild he
    · exact hs
  | exit task ctx =>
    rw [next_exit build hs.valid]
    exact hs.exit hbuild ctx hinit
  | pmi task ctx => exact hs

end Step

/-- At a detach with an initialised field the list is valid; at a PMI it is exactly when there
is none. -/
theorem Sound.listValid_iff {s : Heap × σ} (hs : Sound L s.1 s.2) {e : Event Task}
    (hinit : Initialised L s e) : ListValid L s e ↔ Listless (T := T) s e := by
  cases e with
  | register task kmalloc ctx => exact Iff.rfl
  | fork parent child kmalloc kvmalloc ctx => exact Iff.rfl
  | exit task ctx =>
    refine iff_of_true (fun hfirst => ?_) trivial
    rcases hinit hfirst with hstored | hnull
    · by_cases hc : s.1.clist (L.first s.2 task) = NULL
      · exact .inl hc
      · have hpos := L.held_first hs.valid hfirst
        exact .inr (Option.isSome_iff_ne_none.mpr
          (hs.list _ _ ⟨⟨hfirst,hpos⟩,⟨hstored,rfl⟩,hc⟩))
    · exact .inl hnull
  | pmi task ctx =>
    simp only [ListValid,Listless,snapshotPmc]
    by_cases hdata : T.queryDataTracker ctx s.2 task = NULL
    · simp [hdata]
    · rw [if_neg hdata]
      constructor
      · intro hfits _
        rcases hfits _ rfl with hnull | ⟨c,hc,hstride⟩
        · exact hnull
        · exact absurd ((hs.stride _ c hc).symm.trans hstride) (by decide)
      · intro hlist l hl
        exact Option.some.inj hl ▸ .inl (hlist hdata)

theorem Sound.init [DecidableEq Task] {s : σ} (h : Starts L s) : Sound L .empty s where
  valid := h.valid
  intact := Heap.intact_empty
  live a ha := (h.held ha).le
  stride _ _ hl := by cases hl
  list _ _ hr := by cases hr.2.1.1
  own _ _ _ hr := by cases hr.2.1.1

end Ledger

/-- A child inherits, and the list it was given has entries of the wrong size; a registered task
has whatever its block held before. -/
theorem samples_invalid :
    let T := Hash.tracker (fun _ => 0) (fun t : Fin 2 => t.val)
    let build : Build := ⟨.thread,.nblist,8⟩
    let L := Hash.ledger (fun _ => 0) (fun t : Fin 2 => t.val)
    let inherited : List (Event (Fin 2)) :=
      [.register 0 (some ⟨16,0⟩) calm,.fork 0 1 (some ⟨32,0⟩) (some 64) calm,.pmi 1 calm]
    let registered : List (Event (Fin 2)) := [.register 0 (some ⟨16,7⟩) calm,.exit 0 calm]
    (Admits (next build T) Allocates (.empty,Hash.trackerInit) inherited ∧
        ¬ Admits (next build T) (ListValid L) (.empty,Hash.trackerInit) inherited) ∧
      Admits (next build T) Allocates (.empty,Hash.trackerInit) registered ∧
        ¬ Admits (next build T) (ListValid L) (.empty,Hash.trackerInit) registered := by
  decide

/-- In the builds with one list for each task, in a run whose detaches read initialised fields,
the samples and the detaches meet valid lists exactly when no PMI interrupts a task that a list
was made for. -/
theorem samples_valid_iff {Task σ : Type} [DecidableEq Task] {T : Tracker Task σ} {L : Ledger T}
    {s : σ} (hstart : Starts L s) {build : Build} (hbufferp : build.bufferp = .thread)
    (hclist : build.clist ≠ .none) {events : List (Event Task)}
    (hrun : Admits (next build T) Allocates (.empty,s) events) :
    (Admits (next build T) (fun s e => Initialised L s e ∧ Listless (T := T) s e) (.empty,s) events →
      Admits (next build T) (ListValid L) (.empty,s) events) ∧
    (Admits (next build T) (Initialised L) (.empty,s) events →
      Admits (next build T) (ListValid L) (.empty,s) events →
      Admits (next build T) (Listless (T := T)) (.empty,s) events) := by
  have hbuild : build.freesLists = true := by
    simp [Build.freesLists,hbufferp,hclist]
  have hiff : Admits (next build T) (Initialised L) (.empty,s) events →
      (Admits (next build T) (ListValid L) (.empty,s) events ↔
        Admits (next build T) (Listless (T := T)) (.empty,s) events) := by
    intro hinit
    have hW := admits_and.mpr ⟨hrun,hinit⟩
    exact admits_iff_admits (I := fun s => Sound L s.1 s.2)
      (fun _ _ hI he => hI.listValid_iff he.2)
      (fun _ _ hI he _ => hI.next hbuild he.1 he.2) (Sound.init hstart) hW
  refine ⟨fun h => ?_,fun hinit => (hiff hinit).mp⟩
  obtain ⟨hinit,hlistless⟩ := admits_and.mp h
  exact (hiff hinit).mpr hlistless

/-- A zeroed block, a child whose list cannot be allocated and one whose list can. -/
theorem samples_valid_listless :
    let T := Hash.tracker (fun _ => 0) (fun t : Fin 3 => t.val)
    let build : Build := ⟨.thread,.nblist,8⟩
    Admits (next build T) (ListValid (Hash.ledger (fun _ => 0) (fun t : Fin 3 => t.val)))
      (.empty,Hash.trackerInit)
      [.register 0 (some ⟨16,0⟩) calm,.fork 0 1 (some ⟨32,7⟩) none calm,.pmi 1 calm,
        .fork 1 2 (some ⟨48,7⟩) (some 64) calm,.exit 2 calm,.exit 1 calm,.pmi 0 calm] :=
  (samples_valid_iff (.hash (fun _ => 0) (fun t : Fin 3 => t.val))
    rfl (by decide) (by decide)).1 (by decide)

end PmuMin.Client
