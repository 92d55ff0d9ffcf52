import PmuMin.Library.GracePeriod

/-! The list of the SYSTEM policy while it is taken down: `write_sample` of `bsystem.c` against
`buffering_static_fini`. -/
namespace PmuMin.SystemList
open Pool

/-- Where `buffering_static_fini` stands: before it sets `removing`, in its wait loop, past the
loop, and with the list freed. -/
inductive FiniPc
  | entry
  | waiting
  | left
  | freed
  deriving DecidableEq, Repr

/-- Where a `write_sample` stands: before its check of `removing`, before its increment, before, in
and after `write_clist`, and done. -/
inductive WritePc
  | entry
  | checked
  | counted
  | writing
  | written
  | returned
  deriving DecidableEq, Repr

/-- The statics of `bsystem.c` and the finaliser; the list is allocated until it is freed. -/
structure Shared where
  removing : Bool
  usage : ℕ
  fini : FiniPc
  deriving DecidableEq, Repr

/-- One access of a `write_sample`. -/
def writeStep (g : Shared) : WritePc → Option (Shared × WritePc)
  | .entry => some (g,if g.removing then .returned else .checked)
  | .checked => some ({ g with usage := Refcount.inc g.usage },.counted)
  | .counted => some (g,.writing)
  | .writing => some (g,.written)
  | .written => some ({ g with usage := Refcount.dec g.usage },.returned)
  | .returned => none

/-- One access of `buffering_static_fini`. -/
def finiStep (g : Shared) : Option Shared :=
  match g.fini with
  | .entry => some { g with removing := true, fini := .waiting }
  | .waiting => some (if g.usage > 1 then g else { g with fini := .left })
  | .left => some { g with fini := .freed }
  | .freed => none

def program : Program Shared WritePc where
  start := .entry
  thread := writeStep
  environment g g' := finiStep g = some g'

/-- The client is loaded, and no sample is being written. -/
def init : State Shared WritePc := ⟨⟨false,1,.entry⟩,0⟩

/-- No `write_clist` is under way once the list is freed. -/
def Safe (p : State Shared WritePc) : Prop :=
  p.shared.fini = .freed → WritePc.writing ∉ p.threads

/-- Between its increment and its decrement. -/
def Active (l : WritePc) : Prop := l = .counted ∨ l = .writing ∨ l = .written

instance : DecidablePred Active := fun l => by unfold Active; infer_instance

/-- The finaliser has left its wait loop. -/
def Past (g : Shared) : Prop := g.fini = .left ∨ g.fini = .freed

instance : DecidablePred Past := fun g => by unfold Past; infer_instance

/-- The wait loop is left only with no `write_sample` between its check of `removing` and its
increment. -/
def NoneBetween (p q : State Shared WritePc) : Prop :=
  ¬ Past p.shared → Past q.shared → WritePc.checked ∉ p.threads

/-- `removing` is set once the finaliser has begun. -/
def Removing (g : Shared) : Prop := g.fini ≠ .entry → g.removing = true

theorem finiStep_cases {g g' : Shared} (h : finiStep g = some g') :
    (g.fini = .entry ∧ g' = { g with removing := true, fini := .waiting }) ∨
    (g.fini = .waiting ∧ g' = g) ∨
    (g.fini = .waiting ∧ g.usage ≤ 1 ∧ g' = { g with fini := .left }) ∨
    (g.fini = .left ∧ g' = { g with fini := .freed }) := by
  unfold finiStep at h
  cases hf : g.fini <;> simp only [hf] at h
  · left
    exact ⟨rfl,(Option.some.inj h).symm⟩
  · right
    by_cases hu : g.usage > 1
    · rw [if_pos hu] at h
      exact .inl ⟨rfl,(Option.some.inj h).symm⟩
    · rw [if_neg hu] at h
      exact .inr (.inl ⟨rfl,not_lt.mp hu,(Option.some.inj h).symm⟩)
  · right; right; right
    exact ⟨rfl,(Option.some.inj h).symm⟩
  · cases h

/-- The flag is the gate and `usage` the counter of a grace period. -/
theorem protocol : GracePeriod.Protocol program Shared.usage (fun g => g.removing = true) Past
    Removing Active (fun l => l = .checked) where
  start := by simp [program,Active]
  thread {g g' l l'} h := by
    have hsame : g'.fini = g.fini ∧ g'.removing = g.removing := by
      cases l <;> simp only [program,writeStep,Option.some.injEq,Prod.mk.injEq,reduceCtorEq] at h <;>
        obtain ⟨rfl,rfl⟩ := h <;> exact ⟨rfl,rfl⟩
    refine ⟨?_,?_,?_⟩
    · cases l with
      | entry =>
        by_cases hr : g.removing = true
        · simp [program,writeStep,hr] at h
          obtain ⟨rfl,rfl⟩ := h
          exact .outside (by simp [Active]) (by simp [Active]) (by simp) rfl
        · simp [program,writeStep,hr] at h
          obtain ⟨rfl,rfl⟩ := h
          exact .pass (by simp [Active]) (by simp [Active]) hr rfl
      | checked =>
        simp only [program,writeStep,Option.some.injEq,Prod.mk.injEq] at h
        obtain ⟨rfl,rfl⟩ := h
        exact .enter (by simp [Active]) rfl (by simp [Active]) (by simp) rfl
      | counted | writing =>
        simp only [program,writeStep,Option.some.injEq,Prod.mk.injEq] at h
        obtain ⟨rfl,rfl⟩ := h
        exact .inside (by simp [Active]) (by simp [Active]) (by simp) rfl
      | written =>
        simp only [program,writeStep,Option.some.injEq,Prod.mk.injEq] at h
        obtain ⟨rfl,rfl⟩ := h
        exact .leave (by simp [Active]) (by simp [Active]) (by simp) rfl
      | returned => simp [program,writeStep] at h
    · unfold Past
      rw [hsame.1]
      exact id
    · unfold Removing
      rw [hsame.1,hsame.2]
      exact id
  environment {g g'} h hgood := by
    rcases finiStep_cases h with ⟨he,rfl⟩ | ⟨he,rfl⟩ | ⟨he,hu,rfl⟩ | ⟨he,rfl⟩
    · exact ⟨fun _ => rfl,rfl,by simp [Past]⟩
    · exact ⟨hgood,rfl,.inl⟩
    · exact ⟨fun _ => hgood (by simp [he]),rfl,fun _ => .inr hu⟩
    · exact ⟨fun _ => hgood (by simp [he]),rfl,fun _ => .inl (.inl he)⟩
  closes hgood hpast := hgood (by rcases hpast with he | he <;> simp [he])

theorem inv_init : GracePeriod.Inv Shared.usage Removing Active init where
  usage := Refcount.counts_one
  good h := absurd rfl h

theorem Safe.of_quiet {p : State Shared WritePc}
    (h : GracePeriod.Quiet Past Active (fun l => l = .checked) p) : Safe p :=
  fun hf hw => (h (.inr hf) _ hw).1 (.inr (.inl rfl))

lemma reaches_writing {g : Shared} {ts : Multiset WritePc} (hf : g.fini = .freed)
    (h : WritePc.checked ∈ ts) : ∃ r, Reaches program ⟨g,ts⟩ r ∧ ¬ Safe r := by
  obtain ⟨rest,rfl⟩ := Multiset.exists_cons_of_mem h
  let g' : Shared := { g with usage := Refcount.inc g.usage }
  have hinc : Step program ⟨g,.checked ::ₘ rest⟩ ⟨g',.counted ::ₘ rest⟩ := .thread rest rfl
  have hwrite : Step program ⟨g',.counted ::ₘ rest⟩ ⟨g',.writing ::ₘ rest⟩ := .thread rest rfl
  exact ⟨_,.tail (.tail .refl ⟨hinc,trivial⟩) ⟨hwrite,trivial⟩,
    fun hsafe => hsafe hf (Multiset.mem_cons_self _ _)⟩

lemma reaches_unsafe {g : Shared} {ts : Multiset WritePc} (hpast : Past g)
    (h : WritePc.checked ∈ ts) : ∃ r, Reaches program ⟨g,ts⟩ r ∧ ¬ Safe r := by
  rcases hpast with hleft | hfreed
  · have hfree : Step program ⟨g,ts⟩ ⟨{ g with fini := .freed },ts⟩ :=
      .environment ts (by simp [program,finiStep,hleft])
    obtain ⟨r,hr,hbad⟩ := reaches_writing (g := { g with fini := .freed }) rfl h
    exact ⟨r,.trans (.tail .refl ⟨hfree,trivial⟩) hr,hbad⟩
  · exact reaches_writing hfreed h

/-- No sample is written to the freed list exactly where the wait loop is left with no
`write_sample` between its check of `removing` and its increment: the runs that keep to this never
have a write under way once the list is freed, and a run that leaves the loop otherwise goes on to
such a write. -/
theorem freed_list_unwritten_iff (p : State Shared WritePc) :
    (Reachable program NoneBetween init p → Safe p) ∧
    (∀ q, Reaches program init p → Step program p q → ¬ NoneBetween p q →
      ∃ r, Reaches program init r ∧ Reaches program q r ∧ ¬ Safe r) := by
  constructor
  · intro hp
    refine .of_quiet (protocol.quiet_of_not_mem hp inv_init fun _ l hl => ?_)
    simp [init] at hl
  · intro q hp hs hn
    obtain ⟨hpast,hl⟩ := protocol.mem_of_left hs hn
    obtain ⟨r,hr,hbad⟩ := reaches_unsafe hpast hl
    exact ⟨r,.trans (.tail hp ⟨hs,trivial⟩) hr,hr,hbad⟩

theorem freed_list_unwritten_late : Safe ⟨⟨true,1,.freed⟩,{.returned,.returned}⟩ := by
  have h0 : Reachable program NoneBetween init ⟨⟨false,1,.entry⟩,{.entry}⟩ :=
    .tail .refl ⟨.spawn _ _,by simp [NoneBetween,Past]⟩
  have h1 : Reachable program NoneBetween init ⟨⟨false,1,.entry⟩,{.checked}⟩ :=
    .tail h0 ⟨.thread 0 rfl,by simp [NoneBetween,Past]⟩
  have h2 : Reachable program NoneBetween init ⟨⟨false,2,.entry⟩,{.counted}⟩ :=
    .tail h1 ⟨.thread 0 rfl,by simp [NoneBetween,Past]⟩
  have h3 : Reachable program NoneBetween init ⟨⟨false,2,.entry⟩,{.writing}⟩ :=
    .tail h2 ⟨.thread 0 rfl,by simp [NoneBetween,Past]⟩
  have h4 : Reachable program NoneBetween init ⟨⟨true,2,.waiting⟩,{.writing}⟩ :=
    .tail h3 ⟨.environment _ rfl,by simp [NoneBetween,Past]⟩
  have h5 : Reachable program NoneBetween init ⟨⟨true,2,.waiting⟩,{.written}⟩ :=
    .tail h4 ⟨.thread 0 rfl,by simp [NoneBetween,Past]⟩
  have h6 : Reachable program NoneBetween init ⟨⟨true,1,.waiting⟩,{.returned}⟩ :=
    .tail h5 ⟨.thread 0 rfl,by simp [NoneBetween,Past]⟩
  have h7 : Reachable program NoneBetween init ⟨⟨true,1,.left⟩,{.returned}⟩ :=
    .tail h6 ⟨.environment _ rfl,by simp [NoneBetween,Past]⟩
  have h8 : Reachable program NoneBetween init ⟨⟨true,1,.freed⟩,{.returned}⟩ :=
    .tail h7 ⟨.environment _ rfl,by simp [NoneBetween,Past]⟩
  have h9 : Reachable program NoneBetween init ⟨⟨true,1,.freed⟩,{.entry,.returned}⟩ :=
    .tail h8 ⟨.spawn _ _,by simp [NoneBetween,Past]⟩
  have h10 : Reachable program NoneBetween init ⟨⟨true,1,.freed⟩,{.returned,.returned}⟩ :=
    .tail h9 ⟨.thread {WritePc.returned} rfl,by simp [NoneBetween,Past]⟩
  exact (freed_list_unwritten_iff _).1 h10

/-- A `write_sample` reads `removing` as unset; the finaliser sets it, finds `usage` at rest and
frees the list; the `write_sample` goes on to write. -/
theorem freed_list_written : ∃ p, Reaches program init p ∧ ¬ Safe p := by
  have h0 : Reaches program init ⟨⟨false,1,.entry⟩,{.entry}⟩ := .tail .refl ⟨.spawn _ _,trivial⟩
  have h1 : Reaches program init ⟨⟨false,1,.entry⟩,{.checked}⟩ :=
    .tail h0 ⟨.thread 0 rfl,trivial⟩
  have h2 : Reaches program init ⟨⟨true,1,.waiting⟩,{.checked}⟩ :=
    .tail h1 ⟨.environment _ rfl,trivial⟩
  have h3 : Reaches program init ⟨⟨true,1,.left⟩,{.checked}⟩ :=
    .tail h2 ⟨.environment _ rfl,trivial⟩
  have h4 : Reaches program init ⟨⟨true,1,.freed⟩,{.checked}⟩ :=
    .tail h3 ⟨.environment _ rfl,trivial⟩
  have h5 : Reaches program init ⟨⟨true,2,.freed⟩,{.counted}⟩ :=
    .tail h4 ⟨.thread 0 rfl,trivial⟩
  have h6 : Reaches program init ⟨⟨true,2,.freed⟩,{.writing}⟩ :=
    .tail h5 ⟨.thread 0 rfl,trivial⟩
  exact ⟨_,h6,fun hsafe => hsafe rfl (Multiset.mem_singleton_self _)⟩

end PmuMin.SystemList
