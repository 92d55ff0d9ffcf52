import PmuMin.Library.Pool
import PmuMin.Library.Refcount

/-! Grace periods. Threads pass a gate, count themselves in, work, and count themselves out; a
finaliser closes the gate, waits until the counter is at rest, and goes on. The gate and the
counter are two accesses of a thread, and what happens between them decides. -/
namespace GracePeriod
open Pool
variable {G L : Type*}

section Moves
variable (usage : G → ℕ) (closed : G → Prop) (active between : L → Prop)

/-- What one access of a thread does. Through an open gate a thread gets to stand between the
gate and its increment; the counter changes as a thread becomes active and as it ceases to be. -/
inductive Move (g g' : G) (l l' : L) : Prop
  | outside (hl : ¬ active l) (hl' : ¬ active l') (hb : ¬ between l') (hu : usage g' = usage g)
  | pass (hl : ¬ active l) (hl' : ¬ active l') (hopen : ¬ closed g) (hu : usage g' = usage g)
  | enter (hl : ¬ active l) (hb : between l) (hl' : active l') (hb' : ¬ between l')
      (hu : usage g' = Refcount.inc (usage g))
  | inside (hl : active l) (hl' : active l') (hb : ¬ between l') (hu : usage g' = usage g)
  | leave (hl : active l) (hl' : ¬ active l') (hb : ¬ between l')
      (hu : usage g' = Refcount.dec (usage g))

end Moves

/-- A program that follows the pattern: `past` is where the finaliser has left its wait loop, which
it does on reading the counter at rest, with the gate closed. `good` is what the shared memory
keeps throughout. -/
structure Protocol (P : Program G L) (usage : G → ℕ) (closed past good : G → Prop)
    (active between : L → Prop) : Prop where
  start : ¬ active P.start ∧ ¬ between P.start
  thread : ∀ {g g' l l'}, P.thread g l = some (g',l') →
    Move usage closed active between g g' l l' ∧ (past g' → past g) ∧ (good g → good g')
  environment : ∀ {g g'}, P.environment g g' → good g →
    good g' ∧ usage g' = usage g ∧ (past g' → past g ∨ usage g ≤ 1)
  closes : ∀ {g}, good g → past g → closed g

/-- The counter is exact. -/
structure Inv (usage : G → ℕ) (good : G → Prop) (active : L → Prop) [DecidablePred active]
    (p : State G L) : Prop where
  usage : Refcount.Counts (usage p.shared) (p.threads.countP active)
  good : good p.shared

/-- Past the wait loop nobody is active or about to be. -/
def Quiet (past : G → Prop) (active between : L → Prop) (p : State G L) : Prop :=
  past p.shared → ∀ l ∈ p.threads, ¬ active l ∧ ¬ between l

/-- The wait loop is left only with nobody between the gate and the increment. -/
def NoneBetween (past : G → Prop) (between : L → Prop) (p q : State G L) : Prop :=
  ¬ past p.shared → past q.shared → ∀ l ∈ p.threads, ¬ between l

section Steps
variable {P : Program G L} {usage : G → ℕ} {closed past good : G → Prop} {active between : L → Prop}
  [DecidablePred active] (h : Protocol P usage closed past good active between) {p q : State G L}
include h

theorem Protocol.count_step (hgood : good p.shared) (hs : Step P p q) :
    good q.shared ∧
      (usage q.shared = usage p.shared ∧ q.threads.countP active = p.threads.countP active ∨
        usage q.shared = Refcount.inc (usage p.shared) ∧
          q.threads.countP active = p.threads.countP active + 1 ∨
        usage q.shared = Refcount.dec (usage p.shared) ∧
          p.threads.countP active = q.threads.countP active + 1) := by
  cases hs with
  | spawn g ts => exact ⟨hgood,.inl ⟨rfl,Multiset.countP_cons_of_neg _ h.start.1⟩⟩
  | @thread g g' l l' ts hs =>
    obtain ⟨hmove,-,hkeep⟩ := h.thread hs
    refine ⟨hkeep hgood,?_⟩
    cases hmove with
    | outside hl hl' _ hu | pass hl hl' _ hu =>
      refine .inl ⟨hu,?_⟩
      rw [Multiset.countP_cons_of_neg _ hl,Multiset.countP_cons_of_neg _ hl']
    | enter hl _ hl' _ hu =>
      refine .inr (.inl ⟨hu,?_⟩)
      rw [Multiset.countP_cons_of_neg _ hl,Multiset.countP_cons_of_pos _ hl']
    | inside hl hl' _ hu =>
      refine .inl ⟨hu,?_⟩
      rw [Multiset.countP_cons_of_pos _ hl,Multiset.countP_cons_of_pos _ hl']
    | leave hl hl' _ hu =>
      refine .inr (.inr ⟨hu,?_⟩)
      rw [Multiset.countP_cons_of_pos _ hl,Multiset.countP_cons_of_neg _ hl']
  | environment ts hs =>
    obtain ⟨hgood',hu,-⟩ := h.environment hs hgood
    exact ⟨hgood',.inl ⟨hu,rfl⟩⟩

theorem Protocol.inv_step (hp : Inv usage good active p) (hs : Step P p q) :
    Inv usage good active q := by
  obtain ⟨hcount,hgood⟩ := hp
  obtain ⟨hgood',⟨hu,hn⟩ | ⟨hu,hn⟩ | ⟨hu,hn⟩⟩ := h.count_step hgood hs
  · exact ⟨by rwa [hu,hn],hgood'⟩
  · exact ⟨by rw [hu,hn]; exact hcount.inc,hgood'⟩
  · rw [hn] at hcount
    exact ⟨by rw [hu]; exact hcount.dec,hgood'⟩

/-- Once everybody is out, nobody gets in again, as the gate is closed; and the finaliser leaves
the loop only when the exact counter shows that nobody is active. -/
theorem Protocol.quiet_step (hp : Inv usage good active p) (hq : Quiet past active between p)
    (hs : Step P p q) (hn : NoneBetween past between p q) : Quiet past active between q := by
  obtain ⟨hcount,hgood⟩ := hp
  cases hs with
  | spawn g ts =>
    intro hpast l hl
    rcases Multiset.mem_cons.mp hl with rfl | hl
    · exact h.start
    · exact hq hpast l hl
  | @thread g g' l l' ts hs =>
    intro hpast' k hk
    obtain ⟨hmove,hpast,-⟩ := h.thread hs
    have hl := hq (hpast hpast') l (Multiset.mem_cons_self l ts)
    rcases Multiset.mem_cons.mp hk with rfl | hk
    · cases hmove with
      | outside _ hl' hb' => exact ⟨hl',hb'⟩
      | pass _ _ hopen => exact absurd (h.closes hgood (hpast hpast')) hopen
      | enter _ hb => exact absurd hb hl.2
      | inside hact | leave hact => exact absurd hact hl.1
    · exact hq (hpast hpast') k (Multiset.mem_cons_of_mem hk)
  | environment ts hs =>
    intro hpast' k hk
    rcases Classical.em (past _) with hpast | hpast
    · exact hq hpast k hk
    · obtain ⟨-,-,hleft⟩ := h.environment hs hgood
      have hzero := hcount.eq_zero ((hleft hpast').resolve_left hpast)
      exact ⟨Multiset.countP_eq_zero.mp hzero k hk,hn hpast hpast' k hk⟩

/-- In a run that leaves the wait loop with nobody between the gate and the increment, nobody is
active past the loop. -/
theorem Protocol.quiet (hr : Reachable P (NoneBetween past between) p q)
    (hp : Inv usage good active p) (hq : Quiet past active between p) :
    Inv usage good active q ∧ Quiet past active between q :=
  hr.invariant (I := fun p => Inv usage good active p ∧ Quiet past active between p)
    (fun _ _ hi hs hn => ⟨h.inv_step hi.1 hs,h.quiet_step hi.1 hi.2 hs hn⟩) ⟨hp,hq⟩

omit [DecidablePred active] in
/-- A step that leaves the loop otherwise leaves a thread there behind it. -/
theorem Protocol.between_of_left (hs : Step P p q) (hn : ¬ NoneBetween past between p q) :
    past q.shared ∧ ∃ l ∈ q.threads, between l := by
  simp only [NoneBetween,Classical.not_imp,not_forall,not_not] at hn
  obtain ⟨hpast,hpast',l,hl,hb⟩ := hn
  cases hs with
  | spawn => exact absurd hpast' hpast
  | thread ts hs => exact absurd ((h.thread hs).2.1 hpast') hpast
  | environment ts hs => exact ⟨hpast',l,hl,hb⟩

end Steps

/-- So few threads are active that the counter is not saturated, and it counts them. -/
structure Exact (usage : G → ℕ) (good : G → Prop) (active : L → Prop) [DecidablePred active]
    (p : State G L) : Prop where
  usage : usage p.shared = 1 + p.threads.countP active
  few : p.threads.countP active < 2^31 - 1
  good : good p.shared

section Count
variable {P : Program G L} {usage : G → ℕ} {closed past good : G → Prop} {active between : L → Prop}
  [DecidablePred active] (h : Protocol P usage closed past good active between) {p q : State G L}
include h

theorem Protocol.exact_step (hp : Exact usage good active p) (hs : Step P p q)
    (hfew : q.threads.countP active < 2^31 - 1) : Exact usage good active q := by
  obtain ⟨hcount,hfewp,hgood⟩ := hp
  obtain ⟨hgood',⟨hu,hn⟩ | ⟨hu,hn⟩ | ⟨hu,hn⟩⟩ := h.count_step hgood hs
  · exact ⟨by rw [hu,hcount,hn],hfew,hgood'⟩
  · rw [hn] at hfew
    exact ⟨by rw [hu,hcount,Refcount.inc_one_add hfew,hn],by rwa [hn],hgood'⟩
  · rw [hn] at hcount hfewp
    exact ⟨by rw [hu,hcount,Refcount.dec_one_add hfewp],hfew,hgood'⟩

theorem Protocol.exact (hr : Reachable P (fun _ q => q.threads.countP active < 2^31 - 1) p q)
    (hp : Exact usage good active p) : Exact usage good active q :=
  hr.invariant (fun _ _ hi hs hfew => h.exact_step hi hs hfew) hp

omit h in
theorem Exact.le_one_iff (hp : Exact usage good active p) :
    usage p.shared ≤ 1 ↔ ∀ l ∈ p.threads, ¬ active l := by
  rw [hp.usage,← Multiset.countP_eq_zero]
  omega

end Count

section Place
variable {P : Program G L} {usage : G → ℕ} {closed past good : G → Prop} {active : L → Prop}
  [DecidablePred active] {b : L} (h : Protocol P usage closed past good active (fun l => l = b))
  {p q : State G L}
include h

theorem Protocol.quiet_of_not_mem
    (hr : Reachable P (fun p q => ¬ past p.shared → past q.shared → b ∉ p.threads) p q)
    (hp : Inv usage good active p) (hq : Quiet past active (fun l => l = b) p) :
    Quiet past active (fun l => l = b) q := by
  have hrun : Reachable P (NoneBetween past fun l => l = b) p q :=
    Relation.ReflTransGen.mono
      (fun _ _ hs => ⟨hs.1,fun hn hpast _ hl hb => hs.2 hn hpast (hb ▸ hl)⟩) _ _ hr
  exact (h.quiet hrun hp hq).2

omit [DecidablePred active] in
theorem Protocol.mem_of_left (hs : Step P p q)
    (hn : ¬ (¬ past p.shared → past q.shared → b ∉ p.threads)) :
    past q.shared ∧ b ∈ q.threads := by
  have hbetween : ¬ NoneBetween past (fun l => l = b) p q := fun hnone =>
    hn fun hnot hpast hmem => hnone hnot hpast b hmem rfl
  obtain ⟨hpast,l,hl,rfl⟩ := h.between_of_left hs hbetween
  exact ⟨hpast,hl⟩

end Place
end GracePeriod
