import PmuMin.Tracker.Interface
import PmuMin.Hook.Callbacks
import PmuMin.Library.Machine
import Mathlib.Data.Multiset.AddSub

/-! The registry of `hooks.c`: the list of registered hooks next to the probes that the kernel
has attached. -/
namespace PmuMin.Registry
open Machine

def ENXIO : ℤ := 6

/-- A tracepoint of the kernel. -/
structure Tracepoint where
  name : String
  addr : Word
  deriving DecidableEq, Repr

/-- `struct hook`, with the address of its block. -/
structure Hook where
  addr : Word
  name : String
  func : Word
  type : HookType
  tp : Word
  deriving DecidableEq, Repr

/-- What `kmalloc` gives: an address, and what the `tp` field of the block held before. -/
structure Block where
  addr : Word
  tp : Word
  deriving DecidableEq, Repr

/-- `hooks_list`, the attached probes, and the history of the `kfree` calls. -/
structure State where
  hooksList : List Hook
  probes : Multiset (Word × Word)
  freed : List Word
  deriving DecidableEq

/-- A call, with what its environment decides: the outcomes of `kmalloc` and of
`tracepoint_probe_register`, or what the memory around `hooks_list` reads as a `struct hook`. -/
inductive Call
  | registerHook (type : HookType) (func : Word) (kmalloc : Option Block) (accepts : Bool)
  | unregisterHook (type : HookType) (func : Word) (head : Hook)
  deriving DecidableEq, Repr

def getTpName : HookType → String
  | .schedIn => "sched_switch"
  | .procExec => "sched_process_exec"
  | .procExit => "sched_process_exit"
  | .procFork => "sched_process_fork"
  | .procFree => "sched_process_free"
  | _ => ""

def lookupTracepoint (hook : Hook) (tp : Tracepoint) : Hook :=
  if hook.name = tp.name then { hook with tp := tp.addr } else hook

/-- The entries that `unregister_hook` looks for. -/
def Hook.is (type : HookType) (func : Word) (pos : Hook) : Bool :=
  pos.type = type && pos.func = func

/-- The probe that an entry stands for. -/
def Hook.probe (hook : Hook) : Word × Word := (hook.tp,hook.func)

section Step
variable (kernel : List Tracepoint)

/-- `register_hook`; the `tp` field of the block is not initialised. -/
def registerHook (type : HookType) (func : Word) (kmalloc : Option Block) (accepts : Bool)
    (s : State) : ℤ × State :=
  if func = NULL then (-EINVAL,s)
  else
    match kmalloc with
    | none => (-ENOMEM,s)
    | some b =>
      let hook := kernel.foldl lookupTracepoint ⟨b.addr,getTpName type,func,type,b.tp⟩
      if hook.tp = NULL then (- ENXIO,{ s with freed := b.addr :: s.freed })
      else if !accepts then (- ENXIO,{ s with freed := b.addr :: s.freed })
      else (0,{ s with hooksList := hook :: s.hooksList, probes := hook.probe ::ₘ s.probes })

/-- `unregister_hook`. Where no entry matches, the cursor is left at the list head. -/
def unregisterHook (type : HookType) (func : Word) (head : Hook) (s : State) : State :=
  let pos := (s.hooksList.find? (Hook.is type func)).getD head
  { hooksList := s.hooksList.eraseP (Hook.is type func)
    probes := s.probes.erase pos.probe
    freed := pos.addr :: s.freed }

def next (s : State) : Call → State
  | .registerHook type func kmalloc accepts => (registerHook kernel type func kmalloc accepts s).2
  | .unregisterHook type func head => unregisterHook type func head s

/-- The attached probes are those of the entries. -/
def Mirrors (s : State) : Prop := s.probes = s.hooksList.map Hook.probe

instance (s : State) : Decidable (Mirrors s) := inferInstanceAs (Decidable (_ = _))

/-- No tracepoint of the kernel belongs to the type. -/
def NoTracepoint (type : HookType) : Prop := ∀ tp ∈ kernel, tp.name ≠ getTpName type

instance (type : HookType) : Decidable (NoTracepoint kernel type) :=
  inferInstanceAs (Decidable (∀ tp ∈ kernel, _))

/-- One matching entry goes, with its probe and its block. -/
def RemovesOne (type : HookType) (func : Word) (s t : State) : Prop :=
  ∃ before pos after, Hook.is type func pos = true ∧ s.hooksList = before ++ pos :: after ∧
    t.hooksList = before ++ after ∧ s.probes = pos.probe ::ₘ t.probes ∧
    t.freed = pos.addr :: s.freed

/-- A call leaves list and probes equal. A failed registration changes neither, one of a type
without a tracepoint fails, and a removal takes one matching entry or nothing at all. -/
def MeetsContract (s : State) : Call → Prop
  | .registerHook type func kmalloc accepts =>
    let r := registerHook kernel type func kmalloc accepts s
    Mirrors r.2 ∧
      (r.1 ≠ 0 → r.2.hooksList = s.hooksList ∧ r.2.probes = s.probes) ∧
      (NoTracepoint kernel type → r.1 ≠ 0)
  | .unregisterHook type func head =>
    let t := unregisterHook type func head s
    Mirrors t ∧
      ((∃ pos ∈ s.hooksList, Hook.is type func pos = true) → RemovesOne type func s t) ∧
      ((∀ pos ∈ s.hooksList, Hook.is type func pos = false) → t = s)

/-- A registration finds a tracepoint, or none of its other steps lets it through: no function, no
block, a block whose `tp` field happens to be NULL, or a probe that the kernel rejects. A removal
finds an entry. -/
def Expects (s : State) : Call → Prop
  | .registerHook type func kmalloc accepts =>
    NoTracepoint kernel type → func = NULL ∨ (∀ b, kmalloc = some b → b.tp = NULL) ∨ accepts = false
  | .unregisterHook type func _ => ∃ pos ∈ s.hooksList, Hook.is type func pos = true

end Step

section Lemmas
variable {kernel : List Tracepoint}

variable (kernel) in
lemma foldl_lookupTracepoint (hook : Hook) :
    (kernel.foldl lookupTracepoint hook).func = hook.func ∧
      (kernel.foldl lookupTracepoint hook).name = hook.name ∧
      ((∀ tp ∈ kernel, tp.name ≠ hook.name) →
        (kernel.foldl lookupTracepoint hook).tp = hook.tp) := by
  induction kernel generalizing hook with
  | nil => simp
  | cons tp kernel ih =>
    obtain ⟨hfunc,hname,htp⟩ := ih (lookupTracepoint hook tp)
    have hstep : (lookupTracepoint hook tp).func = hook.func ∧
        (lookupTracepoint hook tp).name = hook.name := by
      unfold lookupTracepoint
      split <;> exact ⟨rfl,rfl⟩
    refine ⟨hfunc.trans hstep.1,hname.trans hstep.2,fun hnone => ?_⟩
    have hsame : lookupTracepoint hook tp = hook :=
      if_neg fun h => hnone tp List.mem_cons_self h.symm
    rw [List.foldl_cons,htp (by
      rw [hsame]
      exact fun t ht => hnone t (List.mem_cons_of_mem _ ht)),hsame]

section Register
variable (kernel) (type : HookType) (func : Word) (kmalloc : Option Block) (accepts : Bool)
  (s : State)

/-- All a registration can do: fail and leave list and probes alone, or put an entry and its probe
in front. -/
lemma registerHook_cases :
    let r := registerHook kernel type func kmalloc accepts s
    (r.1 ≠ 0 ∧ r.2.hooksList = s.hooksList ∧ r.2.probes = s.probes) ∨
      ∃ b, func ≠ NULL ∧ kmalloc = some b ∧ accepts = true ∧
        let hook := kernel.foldl lookupTracepoint ⟨b.addr,getTpName type,func,type,b.tp⟩
        hook.tp ≠ NULL ∧ r =
          (0,{ s with hooksList := hook :: s.hooksList, probes := hook.probe ::ₘ s.probes }) := by
  unfold registerHook
  split
  · exact .inl ⟨(by decide : -EINVAL ≠ 0),rfl,rfl⟩
  · rename_i hfunc
    cases kmalloc with
    | none => exact .inl ⟨(by decide : -ENOMEM ≠ 0),rfl,rfl⟩
    | some b =>
      dsimp only
      split
      · exact .inl ⟨(by decide : - ENXIO ≠ 0),rfl,rfl⟩
      · rename_i htp
        cases accepts with
        | false => exact .inl ⟨(by decide : - ENXIO ≠ 0),rfl,rfl⟩
        | true => exact .inr ⟨b,hfunc,rfl,rfl,htp,rfl⟩

lemma mirrors_registerHook {s : State} (h : Mirrors s) :
    Mirrors (registerHook kernel type func kmalloc accepts s).2 := by
  unfold Mirrors at h ⊢
  rcases registerHook_cases kernel type func kmalloc accepts s with ⟨-,hlist,hprobes⟩ | ⟨b,-,-,-,-,hr⟩
  · rw [hlist,hprobes,h]
  · rw [hr,h]
    rfl

lemma registerHook_of_stale (hnone : NoTracepoint kernel type) {b : Block} (hfunc : func ≠ NULL)
    (htp : b.tp ≠ NULL) : (registerHook kernel type func (some b) true s).1 = 0 := by
  have hlook := (foldl_lookupTracepoint kernel
    ⟨b.addr,getTpName type,func,type,b.tp⟩).2.2 hnone
  simp only [registerHook]
  rw [if_neg hfunc,hlook,if_neg htp]
  rfl

theorem registerHook_meets_iff {s : State} (h : Mirrors s) :
    MeetsContract kernel s (.registerHook type func kmalloc accepts) ↔
      Expects kernel s (.registerHook type func kmalloc accepts) := by
  constructor
  · rintro ⟨-,-,hfails⟩ hnone
    by_contra hstale
    simp only [not_or,not_forall,Bool.not_eq_false] at hstale
    obtain ⟨hfunc,⟨b,rfl,htp⟩,rfl⟩ := hstale
    exact hfails hnone (registerHook_of_stale kernel type func s hnone hfunc htp)
  · intro hexpects
    refine ⟨mirrors_registerHook kernel type func kmalloc accepts h,fun hret => ?_,fun hnone => ?_⟩
    · rcases registerHook_cases kernel type func kmalloc accepts s with ⟨-,hsame⟩ | ⟨b,-,-,-,-,hr⟩
      · exact hsame
      · exact absurd (congrArg Prod.fst hr) hret
    · rcases registerHook_cases kernel type func kmalloc accepts s with
        ⟨hret,-⟩ | ⟨b,hfunc,hb,haccepts,htp,-⟩
      · exact hret
      · have hlook := (foldl_lookupTracepoint kernel
          ⟨b.addr,getTpName type,func,type,b.tp⟩).2.2 hnone
        rcases hexpects hnone with hnull | hnull | hrejects
        · exact absurd hnull hfunc
        · exact absurd (hlook.trans (hnull b hb)) htp
        · exact Bool.noConfusion (haccepts.symm.trans hrejects)

end Register

section Unregister
variable (kernel) (type : HookType) (func : Word) (head : Hook) {s : State}

/-- A removal that finds an entry takes the first one, its probe and its block. -/
lemma unregisterHook_removesOne (h : Mirrors s)
    (hfound : ∃ pos ∈ s.hooksList, Hook.is type func pos = true) :
    RemovesOne type func s (unregisterHook type func head s) ∧
      Mirrors (unregisterHook type func head s) := by
  obtain ⟨e,he,hise⟩ := hfound
  obtain ⟨pos,before,after,hbefore,hpos,hlist,herase⟩ := List.exists_of_eraseP he hise
  have hfind : s.hooksList.find? (Hook.is type func) = some pos := by
    rw [List.find?_eq_some_iff_append]
    exact ⟨hpos,before,after,hlist,fun a ha => by simpa using hbefore a ha⟩
  have hprobes : s.probes = pos.probe ::ₘ ((before ++ after).map Hook.probe : Multiset _) := by
    rw [h,hlist]
    simp
  have htail : (unregisterHook type func head s).probes = (before ++ after).map Hook.probe := by
    simp only [unregisterHook]
    rw [hfind,hprobes]
    exact Multiset.erase_cons_head ..
  refine ⟨⟨before,pos,after,hpos,hlist,herase,hprobes.trans (by rw [htail]),?_⟩,?_⟩
  · simp only [unregisterHook]
    rw [hfind]
    rfl
  · rw [Mirrors,htail]
    simp only [unregisterHook]
    rw [herase]

lemma unregisterHook_ne : unregisterHook type func head s ≠ s := by
  intro h
  have hlen := congrArg (fun t => State.freed t |>.length) h
  simp [unregisterHook] at hlen

theorem unregisterHook_meets_iff (h : Mirrors s) :
    MeetsContract kernel s (.unregisterHook type func head) ↔
      Expects kernel s (.unregisterHook type func head) := by
  constructor
  · rintro ⟨-,-,hnothing⟩
    by_contra hfound
    simp only [Expects,not_exists,not_and,Bool.not_eq_true] at hfound
    exact unregisterHook_ne type func head (hnothing hfound)
  · intro hfound
    obtain ⟨hone,hmirrors⟩ := unregisterHook_removesOne type func head h hfound
    refine ⟨hmirrors,fun _ => hone,fun hnone => ?_⟩
    obtain ⟨pos,hmem,his⟩ := hfound
    exact Bool.noConfusion (his.symm.trans (hnone pos hmem))

end Unregister

variable (kernel) in
theorem meets_iff {s : State} (h : Mirrors s) (c : Call) :
    MeetsContract kernel s c ↔ Expects kernel s c := by
  cases c with
  | registerHook type func kmalloc accepts =>
    exact registerHook_meets_iff kernel type func kmalloc accepts h
  | unregisterHook type func head => exact unregisterHook_meets_iff kernel type func head h

lemma mirrors_next {s : State} {c : Call} (h : MeetsContract kernel s c) :
    Mirrors (next kernel s c) := by
  cases c with
  | registerHook | unregisterHook => exact h.1

/-- A type without a tracepoint is registered on the stale `tp` field of its block; and a removal
that finds no entry frees the address computed from the list head. -/
theorem stale_pointer_registered :
    let kernel : List Tracepoint := [⟨"sched_switch",4096⟩]
    let empty : State := ⟨[],0,[]⟩
    ((registerHook kernel .schedOut 1 (some ⟨64,4104⟩) true empty).1 = 0 ∧
        ¬ Admits (next kernel) (MeetsContract kernel) empty
          [.registerHook .schedOut 1 (some ⟨64,4104⟩) true]) ∧
      (unregisterHook .schedIn 1 ⟨128,"",2,.schedOut,3⟩ empty).freed = [128] ∧
      ¬ Admits (next kernel) (MeetsContract kernel) empty
        [.unregisterHook .schedIn 1 ⟨128,"",2,.schedOut,3⟩] := by
  intro kernel empty
  have hret : (registerHook kernel .schedOut 1 (some ⟨64,4104⟩) true empty).1 = 0 := by decide
  refine ⟨⟨hret,fun h => ?_⟩,rfl,fun h => ?_⟩
  · exact h.1.2.2 (by decide) hret
  · exact unregisterHook_ne _ _ _ (h.1.2.2 (by simp [empty]))

/-- The registry mirrors the probes, with every call keeping its contract, in exactly those runs in
which each removal finds an entry and no registration takes a stale pointer for a tracepoint. -/
theorem mirrors_probes_iff (kernel : List Tracepoint) {s : State} (h : Mirrors s)
    (calls : List Call) :
    Admits (next kernel) (MeetsContract kernel) s calls ↔
      Admits (next kernel) (Expects kernel) s calls :=
  admits_iff_of_invariant (I := Mirrors) (fun _ c hs => meets_iff kernel hs c)
    (fun _ c hs he => mirrors_next ((meets_iff kernel hs c).mpr he)) calls h

/-- A hook is registered twice, the second time in vain, and taken back. -/
theorem mirrors_probes_once :
    Admits (next [⟨"sched_switch",4096⟩]) (MeetsContract [⟨"sched_switch",4096⟩]) ⟨[],0,[]⟩
      [.registerHook .schedIn 1 (some ⟨64,4104⟩) true,
        .registerHook .schedIn 1 (some ⟨96,4104⟩) false,
        .unregisterHook .schedIn 1 ⟨128,"",2,.schedOut,3⟩] :=
  (mirrors_probes_iff _ (by decide) _).mpr
    ⟨fun h => absurd (h ⟨"sched_switch",4096⟩ (by simp)) (by decide),fun _ => .inr (.inr rfl),
      ⟨⟨64,"sched_switch",1,.schedIn,4096⟩,by decide,by decide⟩,trivial⟩

end Lemmas
end PmuMin.Registry
