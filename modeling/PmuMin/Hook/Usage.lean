import PmuMin.Hook.Unmount

/-! What `usage` counts, with `switch_hook_set_state_enable` called at any time besides the hook
invocations and the exit routine. -/
namespace PmuMin.Unmount
open Pool

def switchHookSetStateEnable (state : Bool) (g : Shared) : Shared := { g with shookEnabled := state }

/-- The program in which the hooks are switched on and off. -/
def switched : Program Shared HookPc where
  start := .entry
  thread := hookStep
  environment g g' := exitStep g = some g' ∨ ∃ state, g' = switchHookSetStateEnable state g

/-- Fewer invocations are active than `usage` can count. -/
def Few (p : State Shared HookPc) : Prop := p.threads.countP Active < 2^31 - 1

instance : DecidablePred Few := fun _ => inferInstanceAs (Decidable (_ < _))

/-- The switch is neither the gate nor the counter of the grace period. -/
theorem switched_protocol : GracePeriod.Protocol switched Shared.usage (fun g => g.unmounting > 1)
    Past Marked Active (fun l => l = .mountedSeen) where
  start := protocol.start
  thread := protocol.thread
  environment h hgood := by
    rcases h with hexit | ⟨state,rfl⟩
    · exact protocol.environment hexit hgood
    · exact ⟨hgood,rfl,.inl⟩
  closes := protocol.closes

lemma exitStep_waiting_iff {g : Shared} (h : g.exit = .waiting) :
    exitStep g = some { g with exit := .left } ↔ g.usage ≤ 1 := by
  have hstay : g ≠ { g with exit := .left } := fun heq => by
    have hexit := congrArg Shared.exit heq
    rw [h] at hexit
    cases hexit
  unfold exitStep
  rw [h]
  dsimp only
  rw [Option.some_inj]
  split
  · rename_i hused
    exact iff_of_false hstay (not_le.mpr hused)
  · rename_i hrest
    exact iff_of_true rfl (not_lt.mp hrest)

/-- As long as few enough invocations are active at once, `usage` is one more than their number in
every state, so never zero; and the wait loop is left exactly where none is between its increment
and its decrement. -/
theorem usage_counts_active {enabled : Bool} {p : State Shared HookPc}
    (h : Reachable switched (fun _ q => Few q) (init enabled) p) :
    p.shared.usage = 1 + p.threads.countP Active ∧ p.shared.usage ≠ 0 ∧
      (p.shared.usage ≤ 1 ↔ ∀ l ∈ p.threads, ¬ Active l) ∧
      (p.shared.exit = .waiting →
        (exitStep p.shared = some { p.shared with exit := .left } ↔
          ∀ l ∈ p.threads, ¬ Active l)) := by
  have hinit : GracePeriod.Exact Shared.usage Marked Active (init enabled) := by
    refine ⟨rfl,?_,fun _ => rfl,fun hexit => absurd rfl hexit⟩
    change 0 < 2^31 - 1
    decide
  have hexact := switched_protocol.exact h hinit
  refine ⟨hexact.usage,?_,hexact.le_one_iff,fun hwaiting => ?_⟩
  · rw [hexact.usage]
    omega
  · rw [exitStep_waiting_iff hwaiting]
    exact hexact.le_one_iff

theorem usage_counts_active_waiting :
    let p : State Shared HookPc := ⟨⟨false,2,2,.waiting⟩,{.body}⟩
    p.shared.usage = 1 + p.threads.countP Active ∧ p.shared.usage ≠ 0 ∧ ¬ p.shared.usage ≤ 1 ∧
      exitStep p.shared ≠ some { p.shared with exit := .left } := by
  have h0 : Reachable switched (fun _ q => Few q) (init true) ⟨⟨true,1,1,.entry⟩,{.entry}⟩ :=
    .tail .refl ⟨.spawn _ _,by decide⟩
  have h1 : Reachable switched (fun _ q => Few q) (init true) ⟨⟨true,1,1,.entry⟩,{.enabledSeen}⟩ :=
    .tail h0 ⟨.thread 0 rfl,by decide⟩
  have h2 : Reachable switched (fun _ q => Few q) (init true) ⟨⟨true,1,1,.entry⟩,{.mountedSeen}⟩ :=
    .tail h1 ⟨.thread 0 rfl,by decide⟩
  have h3 : Reachable switched (fun _ q => Few q) (init true) ⟨⟨false,1,1,.entry⟩,{.mountedSeen}⟩ :=
    .tail h2 ⟨.environment _ (.inr ⟨false,rfl⟩),by decide⟩
  have h4 : Reachable switched (fun _ q => Few q) (init true) ⟨⟨false,1,2,.entry⟩,{.counted}⟩ :=
    .tail h3 ⟨.thread 0 rfl,by decide⟩
  have h5 : Reachable switched (fun _ q => Few q) (init true) ⟨⟨false,1,2,.entry⟩,{.body}⟩ :=
    .tail h4 ⟨.thread 0 rfl,by decide⟩
  have h6 : Reachable switched (fun _ q => Few q) (init true) ⟨⟨false,2,2,.clearing⟩,{.body}⟩ :=
    .tail h5 ⟨.environment _ (.inl rfl),by decide⟩
  have h7 : Reachable switched (fun _ q => Few q) (init true) ⟨⟨false,2,2,.waiting⟩,{.body}⟩ :=
    .tail h6 ⟨.environment _ (.inl rfl),by decide⟩
  obtain ⟨hcount,hzero,hone,hexit⟩ := usage_counts_active h7
  have hbody : ¬ ∀ l ∈ ({.body} : Multiset HookPc), ¬ Active l := fun h =>
    h .body (Multiset.mem_singleton_self _) (by decide)
  exact ⟨hcount,hzero,fun h => hbody (hone.mp h),fun h => hbody ((hexit rfl).mp h)⟩

end PmuMin.Unmount
