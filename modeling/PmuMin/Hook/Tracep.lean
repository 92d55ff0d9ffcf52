import PmuMin.Hook.Registry

/-! The installation of the hooks in `system_hook_tracep.c`: a loop over `hook_funcs` that takes
everything back when one of them cannot be registered. -/
namespace PmuMin.Registry

/-- `struct hook_func`. -/
structure HookFunc where
  func : Word
  type : HookType
  deriving DecidableEq, Repr

/-- The addresses of `whook_sched_in`, `whook_proc_fork` and `whook_proc_exit`. -/
structure Whooks where
  schedIn : Word
  procFork : Word
  procExit : Word

def hookFuncs (w : Whooks) : List HookFunc :=
  [⟨w.schedIn,.schedIn⟩,⟨w.procFork,.procFork⟩,⟨w.procExit,.procExit⟩]

/-- What decides a `register_hook`: the result of `kmalloc`, and whether the kernel takes the
probe. -/
structure Attempt where
  kmalloc : Option Block
  accepts : Bool

section Functions
variable (kernel : List Tracepoint) (attempt : HookFunc → Attempt) (head : HookFunc → Hook)

/-- A loop of `unregister_hook` calls. -/
def unregisterHooks (funcs : List HookFunc) (s : State) : State :=
  funcs.foldl (fun s h => unregisterHook h.type h.func (head h) s) s

/-- The loop of `system_hooks_init` with its exit `no_hooks`; `done` has the hooks registered so
far, the last one first. -/
def registerHooksFrom (done : List HookFunc) : List HookFunc → State → ℤ × State
  | [],s => (0,s)
  | h :: hs,s =>
    let r := registerHook kernel h.type h.func (attempt h).kmalloc (attempt h).accepts s
    if r.1 ≠ 0 then (r.1,unregisterHooks head done r.2)
    else registerHooksFrom (h :: done) hs r.2

def systemHooksInit (w : Whooks) (s : State) : ℤ × State :=
  registerHooksFrom kernel attempt head [] (hookFuncs w) s

def systemHooksFini (w : Whooks) (s : State) : State := unregisterHooks head (hookFuncs w) s

end Functions

/-- The list, in its order, and the attached probes are the same. -/
def Same (s t : State) : Prop := t.hooksList = s.hooksList ∧ t.probes = s.probes

instance (s t : State) : Decidable (Same s t) := inferInstanceAs (Decidable (_ ∧ _))

/-- What an entry was registered as. -/
def Hook.key (e : Hook) : HookFunc := ⟨e.func,e.type⟩

/-- The entries in front of the list, with their probes, are all that was added. -/
structure Added (entries : List Hook) (s t : State) : Prop where
  list : t.hooksList = entries ++ s.hooksList
  probes : t.probes = (entries.map Hook.probe : Multiset (Word × Word)) + s.probes

lemma Hook.is_iff {type : HookType} {func : Word} {e : Hook} :
    Hook.is type func e = true ↔ e.key = ⟨func,type⟩ := by
  obtain ⟨addr,name,f,t,tp⟩ := e
  simp [Hook.is,Hook.key,and_comm]

lemma foldl_lookupTracepoint_type (kernel : List Tracepoint) (hook : Hook) :
    (kernel.foldl lookupTracepoint hook).type = hook.type := by
  induction kernel generalizing hook with
  | nil => rfl
  | cons tp kernel ih =>
    rw [List.foldl_cons,ih,lookupTracepoint]
    split <;> rfl

section Added
variable {kernel : List Tracepoint} {attempt : HookFunc → Attempt} {head : HookFunc → Hook}
  {entries : List Hook} {s t : State}

lemma added_refl (s : State) : Added [] s s := ⟨rfl,(Multiset.zero_add _).symm⟩

lemma Added.same (h : Added [] s t) : Same s t :=
  ⟨h.list,h.probes.trans (Multiset.zero_add _)⟩

lemma Added.register (h : Added entries s t) {f : HookFunc} {kmalloc : Option Block}
    {accepts : Bool} (hret : (registerHook kernel f.type f.func kmalloc accepts t).1 = 0) :
    ∃ e, e.key = f ∧
      Added (e :: entries) s (registerHook kernel f.type f.func kmalloc accepts t).2 := by
  rcases registerHook_cases kernel f.type f.func kmalloc accepts t with
    ⟨hne,-⟩ | ⟨b,-,-,-,-,hr⟩
  · exact absurd hret hne
  · rw [hr]
    let hook : Hook := ⟨b.addr,getTpName f.type,f.func,f.type,b.tp⟩
    refine ⟨kernel.foldl lookupTracepoint hook,?_,?_,?_⟩
    · rw [Hook.key,(foldl_lookupTracepoint kernel hook).1,foldl_lookupTracepoint_type]
    · exact congrArg (_ :: ·) h.list
    · dsimp only
      rw [h.probes,List.map_cons,← Multiset.cons_coe,Multiset.cons_add]

lemma Added.register_fails (h : Added entries s t) {f : HookFunc} {kmalloc : Option Block}
    {accepts : Bool} (hret : (registerHook kernel f.type f.func kmalloc accepts t).1 ≠ 0) :
    Added entries s (registerHook kernel f.type f.func kmalloc accepts t).2 := by
  rcases registerHook_cases kernel f.type f.func kmalloc accepts t with
    ⟨-,hlist,hprobes⟩ | ⟨b,-,-,-,-,hr⟩
  · exact ⟨hlist.trans h.list,hprobes.trans h.probes⟩
  · exact absurd (congrArg Prod.fst hr) hret

/-- The search of a removal stops at the entry that was added, unless one of those added after it
has the same type and function; an older entry behind it is never reached. -/
lemma Added.unregister {before after : List Hook} {e : Hook}
    (h : Added (before ++ e :: after) s t) (hfirst : e.key ∉ before.map Hook.key) (head : Hook) :
    Added (before ++ after) s (unregisterHook e.key.type e.key.func head t) := by
  have hmatch : Hook.is e.key.type e.key.func e = true := Hook.is_iff.mpr rfl
  have hother : ∀ x ∈ before, ¬ Hook.is e.key.type e.key.func x = true := by
    intro x hx his
    have hkey : x.key = e.key := Hook.is_iff.mp his
    exact hfirst (hkey ▸ List.mem_map_of_mem hx)
  have hlist : t.hooksList = before ++ e :: (after ++ s.hooksList) := by
    rw [h.list,List.append_assoc,List.cons_append]
  have hfind : t.hooksList.find? (Hook.is e.key.type e.key.func) = some e := by
    rw [hlist,List.find?_eq_some_iff_append]
    refine ⟨hmatch,before,after ++ s.hooksList,rfl,?_⟩
    intro x hx
    simpa using hother x hx
  constructor
  · dsimp only [unregisterHook]
    rw [hlist,List.eraseP_append_right _ hother,List.eraseP_cons_of_pos hmatch,List.append_assoc]
  · have hperm : ((before ++ e :: after).map Hook.probe).Perm
        (e.probe :: (before ++ after).map Hook.probe) :=
      List.perm_middle.map Hook.probe
    dsimp only [unregisterHook]
    rw [hfind,h.probes,Multiset.coe_eq_coe.mpr hperm,← Multiset.cons_coe,Multiset.cons_add]
    exact Multiset.erase_cons_head ..

/-- Taking the entries back in the opposite order: each is the first one of the list. -/
lemma Added.rollback (h : Added entries s t) (head : HookFunc → Hook) :
    Added [] s (unregisterHooks head (entries.map Hook.key) t) := by
  induction entries generalizing t with
  | nil => exact h
  | cons e entries ih =>
    have hfirst : e.key ∉ ([] : List Hook).map Hook.key := List.not_mem_nil
    exact ih (Added.unregister h hfirst (head e.key))

/-- In the order of registration the last entry goes first, and the search passes the others, which
are of other types. -/
lemma Added.unregister_forward (h : Added entries s t) (head : HookFunc → Hook)
    {funcs : List HookFunc} (hkeys : entries.map Hook.key = funcs.reverse) (hnodup : funcs.Nodup) :
    Added [] s (unregisterHooks head funcs t) := by
  induction funcs generalizing entries t with
  | nil =>
    rw [List.map_eq_nil_iff.mp hkeys] at h
    exact h
  | cons f funcs ih =>
    obtain ⟨hf,hrest⟩ := List.nodup_cons.mp hnodup
    rw [List.reverse_cons] at hkeys
    obtain ⟨before,last,rfl,hbefore,hlast⟩ := List.map_eq_append_iff.mp hkeys
    obtain ⟨e,rfl,rfl⟩ := List.map_eq_singleton_iff.mp hlast
    have hfirst : e.key ∉ before.map Hook.key := by
      rw [hbefore]
      exact fun hmem => hf (List.mem_reverse.mp hmem)
    have hstep := h.unregister hfirst (head e.key)
    rw [List.append_nil] at hstep
    exact ih hstep hbefore hrest

/-- The loop, from any number of hooks registered so far. -/
lemma Added.registerHooksFrom (h : Added entries s t) (funcs : List HookFunc) :
    let r := registerHooksFrom kernel attempt head (entries.map Hook.key) funcs t
    (r.1 ≠ 0 → Added [] s r.2) ∧
      (r.1 = 0 → ∃ added, added.map Hook.key = funcs.reverse ++ entries.map Hook.key ∧
        Added added s r.2) := by
  induction funcs generalizing entries t with
  | nil => exact ⟨fun hret => absurd rfl hret,fun _ => ⟨entries,rfl,h⟩⟩
  | cons f funcs ih =>
    rw [Registry.registerHooksFrom]
    dsimp only
    by_cases hret : (registerHook kernel f.type f.func (attempt f).kmalloc (attempt f).accepts t).1 = 0
    · obtain ⟨e,rfl,he⟩ := h.register hret
      rw [if_neg (not_not.mpr hret),List.reverse_cons,List.append_assoc]
      exact ih he
    · rw [if_pos hret]
      exact ⟨fun _ => (h.register_fails hret).rollback head,fun hzero => absurd hzero hret⟩

end Added

/-- A failed installation of the hooks leaves the list and the probes as they were, and a successful
one is taken back exactly by `system_hooks_fini`, whatever was registered before. -/
theorem install_restores (kernel : List Tracepoint) (w : Whooks) (attempt : HookFunc → Attempt)
    (head : HookFunc → Hook) (s : State) :
    let r := systemHooksInit kernel attempt head w s
    (r.1 ≠ 0 → Same s r.2) ∧ (r.1 = 0 → ∀ head', Same s (systemHooksFini head' w r.2)) := by
  intro r
  obtain ⟨hfails,hsucceeds⟩ : (r.1 ≠ 0 → Added [] s r.2) ∧ (r.1 = 0 → ∃ added : List Hook,
      added.map Hook.key = (hookFuncs w).reverse ++ ([] : List Hook).map Hook.key ∧
        Added added s r.2) :=
    (added_refl s).registerHooksFrom (hookFuncs w)
  refine ⟨fun hret => (hfails hret).same,fun hret head' => ?_⟩
  obtain ⟨added,hkeys,hadded⟩ := hsucceeds hret
  rw [List.map_nil,List.append_nil] at hkeys
  have hnodup : (hookFuncs w).Nodup := by simp [hookFuncs]
  exact (hadded.unregister_forward head' hkeys hnodup).same

/-- With the three tracepoints, memory and a willing kernel the hooks are installed. -/
example :
    let kernel : List Tracepoint := [⟨"sched_switch",4096⟩,⟨"sched_process_fork",4104⟩,
      ⟨"sched_process_exit",4112⟩]
    (systemHooksInit kernel (fun h => ⟨some ⟨64 + h.func,0⟩,true⟩)
      (fun _ => ⟨0,"",0,.schedOut,0⟩) ⟨1,2,3⟩ ⟨[],0,[]⟩).1 = 0 := by
  decide

end PmuMin.Registry
