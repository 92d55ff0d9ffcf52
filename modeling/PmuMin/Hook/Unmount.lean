import PmuMin.Library.GracePeriod

/-! Unmounting under load: `start_handler` and `stop_handler` of `system_hook.c` around the hook
bodies, against `switch_hook_module_exit`, which both plugins write the same way. -/
namespace PmuMin.Unmount
open Pool

/-- Where `switch_hook_module_exit` stands: before its increment of `unmounting`, before it
clears `shook_enabled`, in its wait loop, past the loop, and with the hooks removed. -/
inductive ExitPc
  | entry
  | clearing
  | waiting
  | left
  | removed
  deriving DecidableEq, Repr

/-- Where a hook invocation stands: before each of the two checks, before the increment, before,
in and after its body, and back in the kernel. -/
inductive HookPc
  | entry
  | enabledSeen
  | mountedSeen
  | counted
  | body
  | finished
  | returned
  deriving DecidableEq, Repr

/-- The globals of `system_hook.c` and the exit routine. -/
structure Shared where
  shookEnabled : Bool
  unmounting : ℕ
  usage : ℕ
  exit : ExitPc
  deriving DecidableEq, Repr

/-- One access of a hook invocation. -/
def hookStep (g : Shared) : HookPc → Option (Shared × HookPc)
  | .entry => some (g,if g.shookEnabled then .enabledSeen else .returned)
  | .enabledSeen => some (g,if g.unmounting > 1 then .returned else .mountedSeen)
  | .mountedSeen => some ({ g with usage := Refcount.inc g.usage },.counted)
  | .counted => some (g,.body)
  | .body => some (g,.finished)
  | .finished => some ({ g with usage := Refcount.dec g.usage },.returned)
  | .returned => none

/-- One access of `switch_hook_module_exit`, the module being initialized. -/
def exitStep (g : Shared) : Option Shared :=
  match g.exit with
  | .entry =>
    let r := Refcount.incNotZero g.unmounting
    if r.2 then some { g with unmounting := r.1, exit := .clearing } else none
  | .clearing => some { g with shookEnabled := false, exit := .waiting }
  | .waiting => some (if g.usage > 1 then g else { g with exit := .left })
  | .left => some { g with exit := .removed }
  | .removed => none

def program : Program Shared HookPc where
  start := .entry
  thread := hookStep
  environment g g' := exitStep g = some g'

/-- The module is mounted, enabled or not, and no hook is under way. -/
def init (enabled : Bool) : State Shared HookPc := ⟨⟨enabled,1,1,.entry⟩,0⟩

/-- Between its increment and its decrement. -/
def Active (l : HookPc) : Prop := l = .counted ∨ l = .body ∨ l = .finished

instance : DecidablePred Active := fun l => by unfold Active; infer_instance

/-- The exit routine has left its wait loop. -/
def Past (g : Shared) : Prop := g.exit = .left ∨ g.exit = .removed

instance : DecidablePred Past := fun g => by unfold Past; infer_instance

/-- No hook body runs once the wait loop is left. -/
def Safe (p : State Shared HookPc) : Prop := Past p.shared → HookPc.body ∉ p.threads

/-- The wait loop is left only with no invocation between its second check and its increment. -/
def NoneBetween (p q : State Shared HookPc) : Prop :=
  ¬ Past p.shared → Past q.shared → HookPc.mountedSeen ∉ p.threads

/-- What holds in every state: `usage` counts the active invocations, `unmounting` is up once
the exit routine has begun. -/
structure Inv (p : State Shared HookPc) : Prop where
  usage : Refcount.Counts p.shared.usage (p.threads.countP Active)
  mounted : p.shared.exit = .entry → p.shared.unmounting = 1
  unmounting : p.shared.exit ≠ .entry → p.shared.unmounting = 2

theorem inv_init (enabled : Bool) : Inv (init enabled) where
  usage := Refcount.counts_one
  mounted _ := rfl
  unmounting h := absurd rfl h

theorem hookStep_cases {g g' : Shared} {l l' : HookPc} (h : hookStep g l = some (g',l')) :
    (g' = g ∧ ¬ Active l ∧ ¬ Active l' ∧ l' ≠ .mountedSeen) ∨
    (l = .enabledSeen ∧ l' = .mountedSeen ∧ g.unmounting ≤ 1 ∧ g' = g) ∨
    (l = .mountedSeen ∧ l' = .counted ∧ g' = { g with usage := Refcount.inc g.usage }) ∨
    (Active l ∧ Active l' ∧ g' = g) ∨
    (l = .finished ∧ l' = .returned ∧ g' = { g with usage := Refcount.dec g.usage }) := by
  cases l with
  | entry =>
    left
    cases he : g.shookEnabled <;> simp [hookStep,he] at h <;> obtain ⟨rfl,rfl⟩ := h <;>
      simp [Active]
  | enabledSeen =>
    by_cases hu : g.unmounting > 1
    · left
      simp [hookStep,hu] at h
      obtain ⟨rfl,rfl⟩ := h
      simp [Active]
    · right; left
      simp [hookStep,hu] at h
      obtain ⟨rfl,rfl⟩ := h
      exact ⟨rfl,rfl,by omega,rfl⟩
  | mountedSeen =>
    right; right; left
    simp only [hookStep,Option.some.injEq,Prod.mk.injEq] at h
    exact ⟨rfl,h.2.symm,h.1.symm⟩
  | counted | body =>
    right; right; right; left
    simp only [hookStep,Option.some.injEq,Prod.mk.injEq] at h
    obtain ⟨rfl,rfl⟩ := h
    simp [Active]
  | finished =>
    right; right; right; right
    simp only [hookStep,Option.some.injEq,Prod.mk.injEq] at h
    exact ⟨rfl,h.2.symm,h.1.symm⟩
  | returned => simp [hookStep] at h

theorem exitStep_cases {g g' : Shared} (h : exitStep g = some g') :
    (g.exit = .entry ∧ g' = { g with unmounting := Refcount.inc g.unmounting, exit := .clearing }) ∨
    (g.exit = .clearing ∧ g' = { g with shookEnabled := false, exit := .waiting }) ∨
    (g.exit = .waiting ∧ g' = g) ∨
    (g.exit = .waiting ∧ g.usage ≤ 1 ∧ g' = { g with exit := .left }) ∨
    (g.exit = .left ∧ g' = { g with exit := .removed }) := by
  unfold exitStep at h
  cases he : g.exit <;> simp only [he] at h
  · left
    by_cases hz : g.unmounting = 0
    · simp [Refcount.incNotZero,hz] at h
    · simp only [Refcount.incNotZero,hz,if_false,if_true,Option.some.injEq] at h
      exact ⟨rfl,h.symm⟩
  · right; left
    exact ⟨rfl,(Option.some.inj h).symm⟩
  · right; right
    by_cases hu : g.usage > 1
    · rw [if_pos hu] at h
      exact Or.inl ⟨rfl,(Option.some.inj h).symm⟩
    · rw [if_neg hu] at h
      exact Or.inr (Or.inl ⟨rfl,by omega,(Option.some.inj h).symm⟩)
  · right; right; right; right
    exact ⟨rfl,(Option.some.inj h).symm⟩
  · cases h

/-- `unmounting` counts the unmounting. -/
def Marked (g : Shared) : Prop :=
  (g.exit = .entry → g.unmounting = 1) ∧ (g.exit ≠ .entry → g.unmounting = 2)

theorem protocol : GracePeriod.Protocol program Shared.usage (fun g => g.unmounting > 1) Past Marked
    Active (fun l => l = .mountedSeen) where
  start := by simp [program,Active]
  thread {g g' l l'} h := by
    have hsame : g'.exit = g.exit ∧ g'.unmounting = g.unmounting := by
      rcases hookStep_cases h with ⟨rfl,-⟩ | ⟨-,-,-,rfl⟩ | ⟨-,-,rfl⟩ | ⟨-,-,rfl⟩ | ⟨-,-,rfl⟩ <;>
        exact ⟨rfl,rfl⟩
    refine ⟨?_,?_,?_⟩
    · rcases hookStep_cases h with ⟨rfl,hl,hl',hb⟩ | ⟨rfl,rfl,hle,rfl⟩ | ⟨rfl,rfl,rfl⟩ |
        ⟨hl,hl',rfl⟩ | ⟨rfl,rfl,rfl⟩
      · exact .outside hl hl' hb rfl
      · exact .pass (by simp [Active]) (by simp [Active]) (not_lt.mpr hle) rfl
      · exact .enter (by simp [Active]) rfl (by simp [Active]) (by simp) rfl
      · exact .inside hl hl' (fun hb => by simp [Active,hb] at hl') rfl
      · exact .leave (by simp [Active]) (by simp [Active]) (by simp) rfl
    · unfold Past
      rw [hsame.1]
      exact id
    · unfold Marked
      rw [hsame.1,hsame.2]
      exact id
  environment {g g'} h hgood := by
    obtain ⟨hm,hu⟩ := hgood
    rcases exitStep_cases h with ⟨he,rfl⟩ | ⟨he,rfl⟩ | ⟨he,rfl⟩ | ⟨he,hrest,rfl⟩ | ⟨he,rfl⟩
    · refine ⟨⟨by simp,fun _ => ?_⟩,rfl,by simp [Past]⟩
      simp only [hm he]
      rfl
    · exact ⟨⟨by simp,fun _ => hu (by simp [he])⟩,rfl,by simp [Past]⟩
    · exact ⟨⟨hm,hu⟩,rfl,.inl⟩
    · exact ⟨⟨by simp,fun _ => hu (by simp [he])⟩,rfl,fun _ => .inr hrest⟩
    · exact ⟨⟨by simp,fun _ => hu (by simp [he])⟩,rfl,fun _ => .inl (.inl he)⟩
  closes {g} hgood hpast := by
    have hu : g.unmounting = 2 := hgood.2 (by rcases hpast with he | he <;> simp [he])
    omega

theorem inv_iff {p : State Shared HookPc} :
    Inv p ↔ GracePeriod.Inv Shared.usage Marked Active p :=
  ⟨fun h => ⟨h.usage,h.mounted,h.unmounting⟩,fun h => ⟨h.usage,h.good.1,h.good.2⟩⟩

/-- `usage` is exact and `unmounting` stays up, whatever the interleaving. -/
theorem inv_step {p q : State Shared HookPc} (h : Inv p) (hs : Step program p q) : Inv q :=
  inv_iff.mpr (protocol.inv_step (inv_iff.mp h) hs)

/-- Past the wait loop nobody is active or about to be. -/
def Quiet (p : State Shared HookPc) : Prop :=
  Past p.shared → ∀ l ∈ p.threads, ¬ Active l ∧ l ≠ .mountedSeen

theorem Quiet.safe {p : State Shared HookPc} (h : Quiet p) : Safe p :=
  fun hp hb => (h hp _ hb).1 (by simp [Active])

/-- An invocation that is between its second check and its increment reaches its body. -/
theorem reaches_body {g : Shared} {ts : Multiset HookPc} (h : HookPc.mountedSeen ∈ ts) :
    ∃ q, Reaches program ⟨g,ts⟩ q ∧ q.shared.exit = g.exit ∧ HookPc.body ∈ q.threads := by
  obtain ⟨rest,rfl⟩ := Multiset.exists_cons_of_mem h
  let g' : Shared := { g with usage := Refcount.inc g.usage }
  have hinc : Step program ⟨g,.mountedSeen ::ₘ rest⟩ ⟨g',.counted ::ₘ rest⟩ := .thread rest rfl
  have hbody : Step program ⟨g',.counted ::ₘ rest⟩ ⟨g',.body ::ₘ rest⟩ := .thread rest rfl
  exact ⟨_,.tail (.tail .refl ⟨hinc,trivial⟩) ⟨hbody,trivial⟩,rfl,Multiset.mem_cons_self _ _⟩

/-- Unmounting is safe exactly where the wait loop is left with no invocation between its second
check and its increment: the runs that keep to this never have a hook body under way once the
loop is left, and a run that leaves the loop otherwise goes on to such a body. -/
theorem unmount_safe_iff (enabled : Bool) :
    (∀ p, Reachable program NoneBetween (init enabled) p → Safe p) ∧
    (∀ p q, Reaches program (init enabled) p → Step program p q → ¬ NoneBetween p q →
      ∃ r, Reaches program (init enabled) r ∧ Reaches program q r ∧ ¬ Safe r) := by
  constructor
  · intro p hp
    have hinv := inv_iff.mp (inv_init enabled)
    have hquiet : Quiet p := protocol.quiet_of_not_mem hp hinv fun _ l hl => by
      simp [init] at hl
    exact hquiet.safe
  · rintro p ⟨g,ts⟩ hp hs hn
    obtain ⟨hpast,hl⟩ := protocol.mem_of_left hs hn
    obtain ⟨r,hr,he,hb⟩ := reaches_body (g := g) hl
    refine ⟨r,.trans (.tail hp ⟨hs,trivial⟩) hr,hr,fun hsafe => hsafe ?_ hb⟩
    unfold Past at hpast ⊢
    rwa [he]

theorem unmount_safe_late_hook :
    Safe ⟨⟨false,2,1,.left⟩,{.returned}⟩ := by
  have h0 : Reachable program NoneBetween (init true) ⟨⟨true,1,1,.entry⟩,{.entry}⟩ :=
    .tail .refl ⟨.spawn _ _,by simp [NoneBetween,Past]⟩
  have h1 : Reachable program NoneBetween (init true) ⟨⟨true,1,1,.entry⟩,{.enabledSeen}⟩ :=
    .tail h0 ⟨.thread 0 rfl,by simp [NoneBetween,Past]⟩
  have h2 : Reachable program NoneBetween (init true) ⟨⟨true,2,1,.clearing⟩,{.enabledSeen}⟩ :=
    .tail h1 ⟨.environment _ rfl,by simp [NoneBetween,Past]⟩
  have h3 : Reachable program NoneBetween (init true) ⟨⟨false,2,1,.waiting⟩,{.enabledSeen}⟩ :=
    .tail h2 ⟨.environment _ rfl,by simp [NoneBetween,Past]⟩
  have h4 : Reachable program NoneBetween (init true) ⟨⟨false,2,1,.left⟩,{.enabledSeen}⟩ :=
    .tail h3 ⟨.environment _ rfl,by simp [NoneBetween,Past]⟩
  have h5 : Reachable program NoneBetween (init true) ⟨⟨false,2,1,.left⟩,{.returned}⟩ :=
    .tail h4 ⟨.thread 0 rfl,by simp [NoneBetween,Past]⟩
  exact (unmount_safe_iff true).1 _ h5

/-- An invocation passes both checks; the exit routine runs to the end of its wait loop; the
invocation goes on into its body. -/
theorem unmount_unsafe : ∃ p, Reaches program (init true) p ∧ ¬ Safe p := by
  have h0 : Reaches program (init true) ⟨⟨true,1,1,.entry⟩,{.entry}⟩ :=
    .tail .refl ⟨.spawn _ _,trivial⟩
  have h1 : Reaches program (init true) ⟨⟨true,1,1,.entry⟩,{.enabledSeen}⟩ :=
    .tail h0 ⟨.thread 0 rfl,trivial⟩
  have h2 : Reaches program (init true) ⟨⟨true,1,1,.entry⟩,{.mountedSeen}⟩ :=
    .tail h1 ⟨.thread 0 rfl,trivial⟩
  have h3 : Reaches program (init true) ⟨⟨true,2,1,.clearing⟩,{.mountedSeen}⟩ :=
    .tail h2 ⟨.environment _ rfl,trivial⟩
  have h4 : Reaches program (init true) ⟨⟨false,2,1,.waiting⟩,{.mountedSeen}⟩ :=
    .tail h3 ⟨.environment _ rfl,trivial⟩
  have h5 : Reaches program (init true) ⟨⟨false,2,1,.left⟩,{.mountedSeen}⟩ :=
    .tail h4 ⟨.environment _ rfl,trivial⟩
  have h6 : Reaches program (init true) ⟨⟨false,2,2,.left⟩,{.counted}⟩ :=
    .tail h5 ⟨.thread 0 rfl,trivial⟩
  have h7 : Reaches program (init true) ⟨⟨false,2,2,.left⟩,{.body}⟩ :=
    .tail h6 ⟨.thread 0 rfl,trivial⟩
  exact ⟨_,h7,fun hsafe => hsafe (Or.inl rfl) (Multiset.mem_singleton_self _)⟩

end PmuMin.Unmount
