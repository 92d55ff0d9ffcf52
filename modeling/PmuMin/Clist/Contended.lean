import PmuMin.Clist.Carray
import PmuMin.Library.Atomic
import Mathlib.Data.Fintype.Prod
import Mathlib.Algebra.Order.BigOperators.Group.Finset
import Mathlib.Algebra.Ring.Nat

/-! `write_clist` of `carray.c` on many CPUs: what its spinlock gives, and the deadlock that the
note above it warns of. -/
namespace PmuMin.LockedArray.Contended
open NbBoundedList (Memory memcpy)
open Machine

/-- Program points of `write_clist`, each before the step its name says; `memcpy` has copied `k`
bytes. -/
inductive Pc
  | idle
  | locking (bucket : Memory)
  | copying (bucket : Memory) (k : ℕ)
  | advancing
  | unlocking
  | returning

/-- The array, the context that holds its lock, and where the contexts stand. -/
structure Config (T : Type) where
  lock : Option T
  carray : Carray
  pc : T → Pc

variable {T : Type}

def initial (carray : Carray) : Config T := ⟨none,carray,fun _ => .idle⟩

/-- The check for overwrites. -/
def moveCursor (carray : Carray) : Carray :=
  { carray with
    idx :=
      if carray.idx.signExtend 64 < carray.len - 1 then
        (carray.idx.signExtend 64 + carray.stride).setWidth 32
      else 0 }

/-- One step of a context, if it is not waiting for the lock. -/
def advance (t : T) (lock : Option T) (carray : Carray) : Pc → Option (Option T × Carray × Pc)
  | .idle | .returning => none
  | .locking bucket =>
    match lock with
    | none => some (some t,carray,.copying bucket 0)
    | some _ => none
  | .copying bucket k =>
    if k < carray.stride.toNat then
      some (lock,
        { carray with buf := Function.update carray.buf (entry carray + k) (bucket k) },
        .copying bucket (k+1))
    else some (lock,carray,.advancing)
  | .advancing => some (lock,moveCursor carray,.unlocking)
  | .unlocking => some (none,carray,.returning)

/-- A call of an idle context, a step of a context, a return. -/
inductive Action (T : Type)
  | call (t : T) (bucket : Memory)
  | step (t : T)
  | ret (t : T)

variable [DecidableEq T]

/-- An action that is not possible changes nothing. -/
def step (c : Config T) : Action T → Config T × Option (Atomic.Event T Memory Unit)
  | .call t bucket =>
    match c.pc t with
    | .idle => ({ c with pc := Function.update c.pc t (.locking bucket) },some (.call t bucket))
    | _ => (c,none)
  | .step t =>
    match advance t c.lock c.carray (c.pc t) with
    | some (lock,carray,pc) => (⟨lock,carray,Function.update c.pc t pc⟩,none)
    | none => (c,none)
  | .ret t =>
    match c.pc t with
    | .returning => ({ c with pc := Function.update c.pc t .idle },some (.ret t ()))
    | _ => (c,none)

def next (c : Config T) (a : Action T) : Config T := (step c a).1

/-- The sample of the write that gets the lock in a step. -/
def acquires (c : Config T) : Action T → Option (T × Memory)
  | .step t =>
    match c.lock,c.pc t with
    | none,.locking bucket => some (t,bucket)
    | _,_ => none
  | .call _ _ | .ret _ => none

/-- The writes of a run, in the order in which they get the lock. -/
def locked : Config T → List (Action T) → List (T × Memory)
  | _,[] => []
  | c,a :: as => (acquires c a).toList ++ locked (next c a) as

/-- A write in one step. -/
def spec (carray : Carray) (bucket : Memory) (carray' : Carray) (_ : Unit) : Prop :=
  carray' = writeClist carray bucket

/-- The context is between `spin_lock` and `spin_unlock`. -/
def Inside : Pc → Prop
  | .copying .. | .advancing | .unlocking => True
  | _ => False

theorem writeClist_eq (carray : Carray) (bucket : Memory) :
    writeClist carray bucket = moveCursor
      { carray with buf := memcpy carray.buf (entry carray) bucket carray.stride.toNat } := rfl

lemma memcpy_zero (dst : Memory) (d : ℕ) (src : Memory) : memcpy dst d src 0 = dst := by
  funext i
  rw [memcpy,if_neg (by omega)]

lemma memcpy_succ (dst : Memory) (d : ℕ) (src : Memory) (k : ℕ) :
    memcpy dst d src (k+1) = Function.update (memcpy dst d src k) (d + k) (src k) := by
  funext i
  by_cases hi : i = d + k
  · subst hi
    rw [Function.update_self,memcpy,if_pos (by omega),Nat.add_sub_cancel_left]
  · rw [Function.update_of_ne hi]
    unfold memcpy
    congr 1
    apply propext
    omega

/-- The array in the middle of a write, and how far the atomic array has come with it. -/
def Owes (before carray : Carray) : Pc → Atomic.Phase Memory Unit → Prop
  | .idle,ph => ph = .idle
  | .locking bucket,ph => ph = .called bucket
  | .copying bucket k,ph =>
    carray = { before with buf := memcpy before.buf (entry before) bucket k } ∧
      k ≤ before.stride.toNat ∧ ph = .called bucket
  | .advancing,ph =>
    ∃ bucket, ph = .called bucket ∧
      carray = { before with buf := memcpy before.buf (entry before) bucket before.stride.toNat }
  | .unlocking,ph => carray = before ∧ ph = .served ()
  | .returning,ph => ph = .served ()

/-- The atomic array behind a state: it is the array itself unless a write is under way, and then
the context that holds the lock is the one that writes. -/
structure Follows (c : Config T) (p : Atomic.State T Memory Unit Carray) : Prop where
  holder : ∀ t, Inside (c.pc t) ↔ c.lock = some t
  free : c.lock = none → c.carray = p.object
  owes : ∀ t, Owes p.object c.carray (c.pc t) (p.phase t)

/-- The write that has got the lock and is not done yet. -/
def pending (lock : Option T) (p : Atomic.State T Memory Unit Carray) : List (T × Memory) :=
  match lock with
  | none => []
  | some t =>
    match p.phase t with
    | .called bucket => [(t,bucket)]
    | _ => []

omit [DecidableEq T] in
theorem follows_initial (carray : Carray) :
    Follows (initial carray : Config T) (Atomic.initial carray) where
  holder t := by simp [initial,Inside]
  free _ := rfl
  owes _ := rfl

section Steps
variable {c : Config T} {p : Atomic.State T Memory Unit Carray} {t : T}

/-- A step of one context, as far as the others notice it. -/
lemma Follows.update (h : Follows c p) {lock : Option T} {carray before : Carray} {pc : Pc}
    {ph : Atomic.Phase Memory Unit} (hholder : Inside pc ↔ lock = some t)
    (hlock : ∀ t', t' ≠ t → (lock = some t' ↔ c.lock = some t'))
    (hfree : lock = none → carray = before) (howes : Owes before carray pc ph)
    (hother : (before = p.object ∧ carray = c.carray) ∨ c.lock = some t) :
    Follows ⟨lock,carray,Function.update c.pc t pc⟩ ⟨before,Function.update p.phase t ph⟩ where
  holder t' := by
    by_cases he : t' = t
    · subst he
      simpa only [Function.update_self] using hholder
    · simp only [Function.update_of_ne he]
      exact (h.holder t').trans (hlock t' he).symm
  free := hfree
  owes t' := by
    by_cases he : t' = t
    · subst he
      simpa only [Function.update_self] using howes
    · simp only [Function.update_of_ne he]
      have howes' := h.owes t'
      rcases hother with ⟨rfl,rfl⟩ | hl
      · exact howes'
      · have hout : ¬ Inside (c.pc t') := by
          intro hin
          have hl' := (h.holder t').mp hin
          exact he (Option.some.inj (hl'.symm.trans hl))
        cases hp : c.pc t' <;> rw [hp] at howes' hout
        case copying | advancing | unlocking => exact absurd trivial hout
        all_goals exact howes'

/-- The atomic array follows a step of the contexts to a state, in which the writes come up to those
that have got the lock. -/
def Advances (c : Config T) (p : Atomic.State T Memory Unit Carray)
    (e : Option (Atomic.Event T Memory Unit)) (acquired : Option (T × Memory)) (c' : Config T) :
    Prop :=
  ∃ served q, Atomic.Step spec p e served q ∧ Follows c' q ∧
    served.toList.map (fun e => (e.1,e.2.1)) ++ pending c'.lock q =
      pending c.lock p ++ acquired.toList

lemma Follows.refl (h : Follows c p) : Advances c p none none c :=
  ⟨none,p,.skip,h,(List.append_nil _).symm⟩

lemma Follows.silent (h : Follows c p) {lock : Option T} {carray : Carray} {pc : Pc}
    {acquired : Option (T × Memory)} (hholder : Inside pc ↔ lock = some t)
    (hlock : ∀ t', t' ≠ t → (lock = some t' ↔ c.lock = some t'))
    (hfree : lock = none → carray = p.object)
    (howes : Owes p.object carray pc (p.phase t))
    (hother : carray = c.carray ∨ c.lock = some t)
    (hpending : pending lock p = pending c.lock p ++ acquired.toList) :
    Advances c p none acquired ⟨lock,carray,Function.update c.pc t pc⟩ := by
  refine ⟨none,p,.skip,?_,hpending⟩
  have hf := h.update hholder hlock hfree howes (hother.imp_left fun hc => ⟨rfl,hc⟩)
  rwa [Function.update_eq_self] at hf

theorem Follows.advance (h : Follows c p) {lock : Option T} {carray : Carray} {pc : Pc}
    (ha : Contended.advance t c.lock c.carray (c.pc t) = some (lock,carray,pc)) :
    Advances c p none (acquires c (.step t)) ⟨lock,carray,Function.update c.pc t pc⟩ := by
  have howes := h.owes t
  have hin := (h.holder t).mp
  have hacquires : (∀ bucket, c.pc t ≠ .locking bucket) → acquires c (.step t) = none := by
    intro hne
    simp only [acquires]
    split
    · rename_i hpc
      exact absurd hpc (hne _)
    · rfl
  cases hp : c.pc t <;> rw [hp] at ha howes hin
  case idle | returning => cases ha
  case locking bucket =>
    simp only [Contended.advance] at ha
    split at ha <;> cases ha
    rename_i hfree
    refine h.silent ⟨fun _ => rfl,fun _ => trivial⟩ ?_
      (fun hl => absurd hl (Option.some_ne_none t)) ?_ (.inl rfl) ?_
    · intro t' ht'
      simp [hfree,Ne.symm ht']
    · refine ⟨?_,Nat.zero_le _,howes⟩
      rw [h.free hfree,memcpy_zero]
    · simp only [pending,acquires,hfree,hp,Owes] at howes ⊢
      rw [howes]
      rfl
  case copying bucket k =>
    have hl := hin trivial
    have hnone := hacquires fun b hb => by rw [hp] at hb; cases hb
    obtain ⟨hc,hk,hph⟩ := howes
    simp only [Contended.advance,hc] at ha
    rw [hnone]
    split at ha <;> cases ha
    · rename_i hlt
      refine h.silent ⟨fun _ => hl,fun _ => trivial⟩ (fun _ _ => Iff.rfl) (by simp [hl])
        ⟨?_,hlt,hph⟩ (.inr hl) (List.append_nil _).symm
      rw [memcpy_succ]
      rfl
    · rename_i hge
      obtain rfl : k = p.object.stride.toNat := Nat.le_antisymm hk (Nat.not_lt.mp hge)
      exact h.silent ⟨fun _ => hl,fun _ => trivial⟩ (fun _ _ => Iff.rfl) (by simp [hl])
        ⟨bucket,hph,rfl⟩ (.inr hl) (List.append_nil _).symm
  case advancing =>
    -- the write takes effect: the cursor goes past the copy
    have hl := hin trivial
    have hnone := hacquires fun b hb => by rw [hp] at hb; cases hb
    obtain ⟨bucket,hph,hc⟩ := howes
    cases ha
    have hserve : spec p.object bucket (moveCursor c.carray) () := by
      rw [spec,writeClist_eq,hc]
    rw [hnone]
    refine ⟨_,_,.serve t hph hserve,h.update ⟨fun _ => hl,fun _ => trivial⟩
      (fun _ _ => Iff.rfl) (by simp [hl]) ⟨rfl,rfl⟩ (.inr hl),?_⟩
    simp only [pending,hl,hph,Function.update_self]
    rfl
  case unlocking =>
    have hl := hin trivial
    have hnone := hacquires fun b hb => by rw [hp] at hb; cases hb
    obtain ⟨hc,hph⟩ := howes
    cases ha
    rw [hnone]
    refine h.silent ⟨False.elim,fun hl => absurd hl.symm (Option.some_ne_none t)⟩ ?_ (fun _ => hc)
      hph (.inl rfl) ?_
    · intro t' ht'
      simp [hl,Ne.symm ht']
    · simp only [pending,hl,hph]
      rfl

/-- Who does not hold the lock has nothing to do with the write that does. -/
lemma pending_update (hl : c.lock ≠ some t) (p : Atomic.State T Memory Unit Carray)
    (ph : Atomic.Phase Memory Unit) :
    pending c.lock ⟨p.object,Function.update p.phase t ph⟩ = pending c.lock p := by
  cases hlock : c.lock with
  | none => rfl
  | some t' =>
    have hne : t' ≠ t := fun heq => hl (hlock.trans (congrArg some heq))
    simp only [pending,Function.update_of_ne hne]

theorem Follows.next (h : Follows c p) (a : Action T) :
    Advances c p (step c a).2 (acquires c a) (next c a) := by
  cases a with
  | call t bucket =>
    cases hp : c.pc t
    case idle =>
      have howes := h.owes t
      have hout : c.lock ≠ some t := fun hl => by simpa [hp,Inside] using (h.holder t).mpr hl
      simp only [Contended.next,step,hp]
      rw [hp] at howes
      refine ⟨none,_,.call t bucket howes,h.update ⟨False.elim,fun hl => absurd hl hout⟩
        (fun _ _ => Iff.rfl) h.free rfl (.inl ⟨rfl,rfl⟩),?_⟩
      exact (pending_update hout p _).trans (List.append_nil _).symm
    all_goals
      simp only [Contended.next,step,hp]
      exact h.refl
  | step t =>
    simp only [Contended.next,step]
    cases hadv : Contended.advance t c.lock c.carray (c.pc t) with
    | none =>
      have hnone : acquires c (.step t) = none := by
        simp only [acquires]
        split
        · rename_i hlock hpc
          rw [hlock,hpc] at hadv
          cases hadv
        · rfl
      rw [hnone]
      exact h.refl
    | some r => exact h.advance hadv
  | ret t =>
    cases hp : c.pc t
    case returning =>
      have howes := h.owes t
      have hout : c.lock ≠ some t := fun hl => by simpa [hp,Inside] using (h.holder t).mpr hl
      simp only [Contended.next,step,hp]
      rw [hp] at howes
      refine ⟨none,_,.ret t howes,h.update ⟨False.elim,fun hl => absurd hl hout⟩
        (fun _ _ => Iff.rfl) h.free rfl (.inl ⟨rfl,rfl⟩),?_⟩
      exact (pending_update hout p _).trans (List.append_nil _).symm
    all_goals
      simp only [Contended.next,step,hp]
      exact h.refl

end Steps

/-- Behind every run there is one of the atomic array, which serves the writes in the order in which
they get the lock. -/
theorem exists_explains {c : Config T} {p : Atomic.State T Memory Unit Carray} {carray : Carray}
    {h : List (Atomic.Event T Memory Unit)} {log : List (T × Memory × Unit)} (hf : Follows c p)
    (he : Atomic.Explains spec carray h log p) (as : List (Action T)) :
    ∃ log' q, Atomic.Explains spec carray (h ++ Atomic.history step c as) log' q ∧
      Follows (as.foldl next c) q ∧
      log'.map (fun e => (e.1,e.2.1)) ++ pending (as.foldl next c).lock q =
        log.map (fun e => (e.1,e.2.1)) ++ pending c.lock p ++ locked c as := by
  induction as generalizing c p h log with
  | nil => exact ⟨log,p,by simpa [Atomic.history,Machine.outputs] using he,hf,by simp [locked]⟩
  | cons a as ih =>
    obtain ⟨served,q,hstep,hq,hpending⟩ := hf.next a
    obtain ⟨log',r,hr,hfollows,horder⟩ := ih hq (he.step hstep)
    refine ⟨log',r,?_,hfollows,horder.trans ?_⟩
    · rwa [Atomic.history_cons,← List.append_assoc]
    · rw [List.map_append,List.append_assoc (log.map _),hpending,locked]
      simp only [List.append_assoc]

theorem exists_follows (carray : Carray) (as : List (Action T)) :
    ∃ q, Follows (as.foldl next (initial carray)) q := by
  obtain ⟨-,q,-,hq,-⟩ := exists_explains (follows_initial carray)
    (Atomic.explains_initial spec carray) as
  exact ⟨q,hq⟩

omit [DecidableEq T] in
lemma foldl_of_legal {carray object : Carray} {log : List (T × Memory × Unit)}
    (h : Atomic.Legal spec carray log object) :
    object = (log.map fun e => e.2.1).foldl writeClist carray := by
  induction h with
  | nil => rfl
  | snoc t _ hs ih =>
    rw [List.map_append,List.foldl_append,← ih]
    exact hs

/-- The writes of the locked array take effect one at a time. Whatever the number of contexts and
however their steps interleave, the history is one of an array that each `write_clist` changes in
one step; and between two critical sections the array is that one, with the writes served in the
order in which they got the lock, and its buffer and cursor are what these writes leave one after
the other: no sample is torn and no slot is skipped. -/
theorem writes_atomic (carray : Carray) (as : List (Action T)) :
    let c := as.foldl next (initial carray)
    let h := Atomic.history step (initial carray) as
    let order := locked (initial carray) as
    ∃ (p : Atomic.State T Memory Unit Carray) (log : List (T × Memory × Unit)),
      Atomic.Runs spec (Atomic.initial carray) h p ∧ Atomic.Legal spec carray log p.object ∧
      (∀ t, Atomic.Accounts t h log (p.phase t)) ∧
      (c.lock = none → c.carray = p.object ∧ log.map (fun e => (e.1,e.2.1)) = order ∧
        c.carray = (order.map Prod.snd).foldl writeClist carray) := by
  intro c h order
  obtain ⟨log,p,he,hf,horder⟩ := exists_explains (follows_initial carray)
    (Atomic.explains_initial spec carray) as
  refine ⟨p,log,he.runs,he.legal,he.accounts,fun hfree => ?_⟩
  have hlog : log.map (fun e => (e.1,e.2.1)) = order := by
    have hnone : pending (as.foldl next (initial carray)).lock p = [] := by
      rw [hfree]
      rfl
    rw [hnone,List.append_nil] at horder
    exact horder
  refine ⟨hf.free hfree,hlog,(hf.free hfree).trans ?_⟩
  rw [foldl_of_legal he.legal,← hlog,List.map_map]
  rfl

/-- A CPU runs a task, which a PMI of that CPU interrupts until it returns. -/
inductive Level
  | task
  | pmi
  deriving DecidableEq, Repr

instance : Fintype Level := ⟨{.task,.pmi},by rintro (_ | _) <;> decide⟩

def Action.who : Action T → T
  | .call t _ | .step t | .ret t => t

def Pc.isIdle : Pc → Bool
  | .idle => true
  | _ => false

lemma isIdle_next {c : Config T} {t : T} (h : (c.pc t).isIdle = true) {a : Action T}
    (ha : ∀ bucket, a ≠ .call t bucket) : ((next c a).pc t).isIdle = true := by
  have hidle : c.pc t = .idle := by
    cases hp : c.pc t <;> rw [hp] at h <;> first | rfl | cases h
  cases a with
  | call t' bucket =>
    have ht : t ≠ t' := by
      rintro rfl
      exact ha bucket rfl
    simp only [next,step]
    split
    · simpa only [Function.update_of_ne ht] using h
    · exact h
  | step t' =>
    by_cases ht : t = t'
    · subst ht
      simpa only [next,step,hidle,advance] using h
    · simp only [next,step]
      split
      · simpa only [Function.update_of_ne ht] using h
      · exact h
  | ret t' =>
    by_cases ht : t = t'
    · subst ht
      simpa only [next,step,hidle] using h
    · simp only [next,step]
      split
      · simpa only [Function.update_of_ne ht] using h
      · exact h

section Deadlock
variable {Cpu : Type}

/-- The task of a CPU does not run while a PMI is handled there. -/
def Schedulable (c : Config (Cpu × Level)) (a : Action (Cpu × Level)) : Prop :=
  a.who.2 = .task → (c.pc (a.who.1,.pmi)).isIdle = true

instance (c : Config (Cpu × Level)) : DecidablePred (Schedulable c) := fun a =>
  inferInstanceAs (Decidable (a.who.2 = .task → (c.pc (a.who.1,.pmi)).isIdle = true))

/-- The PMI waits for the lock that the task it interrupted holds. -/
def Stuck (c : Config (Cpu × Level)) (cpu : Cpu) : Prop :=
  (∃ bucket, c.pc (cpu,.pmi) = .locking bucket) ∧ c.lock = some (cpu,.task)

variable [DecidableEq Cpu] {c : Config (Cpu × Level)}

lemma stuck_next (hholder : ∀ t, Inside (c.pc t) ↔ c.lock = some t) {cpu : Cpu}
    (h : Stuck c cpu) {a : Action (Cpu × Level)} (ha : Schedulable c a) :
    Stuck (next c a) cpu := by
  obtain ⟨⟨bucket,hp⟩,hlock⟩ := h
  have hbusy : (c.pc (cpu,.pmi)).isIdle = false := by rw [hp]; rfl
  cases a with
  | call t b =>
    simp only [next,step]
    split
    · rename_i hidle
      have ht : (cpu,Level.pmi) ≠ t := by
        rintro rfl
        rw [hp] at hidle
        cases hidle
      exact ⟨⟨bucket,by simpa only [Function.update_of_ne ht] using hp⟩,hlock⟩
    · exact ⟨⟨bucket,hp⟩,hlock⟩
  | ret t =>
    simp only [next,step]
    split
    · rename_i hret
      have ht : (cpu,Level.pmi) ≠ t := by
        rintro rfl
        rw [hp] at hret
        cases hret
      exact ⟨⟨bucket,by simpa only [Function.update_of_ne ht] using hp⟩,hlock⟩
    · exact ⟨⟨bucket,hp⟩,hlock⟩
  | step t =>
    have hin : ¬ Inside (c.pc t) := by
      intro hin
      obtain rfl : t = (cpu,Level.task) := Option.some.inj (((hholder t).mp hin).symm.trans hlock)
      have hidle : (c.pc (cpu,.pmi)).isIdle = true := ha rfl
      rw [hbusy] at hidle
      cases hidle
    have hwait : advance t c.lock c.carray (c.pc t) = none := by
      cases hpc : c.pc t <;> rw [hpc] at hin
      case copying | advancing | unlocking => exact absurd trivial hin
      case locking b => simp [advance,hlock]
      all_goals rfl
    simp only [next,step,hwait]
    exact ⟨⟨bucket,hp⟩,hlock⟩

/-- The steps a context has left, with the lock at hand. -/
def cost (stride : ℕ) : Pc → ℕ
  | .idle => 0
  | .returning => 1
  | .unlocking => 2
  | .advancing => 3
  | .copying _ k => 4 + (stride - k)
  | .locking _ => 5 + stride

/-- The next action of a context under way. -/
def proceed (c : Config T) (t : T) : Action T :=
  match c.pc t with
  | .returning => .ret t
  | _ => .step t

omit [DecidableEq T] [DecidableEq Cpu] in
lemma who_proceed (c : Config T) (t : T) : (proceed c t).who = t := by
  unfold proceed
  split <;> rfl

/-- A context that does not wait for the lock comes closer to its end. -/
lemma next_proceed (c : Config T) {t : T} (hp : (c.pc t).isIdle = false)
    (hfree : ∀ bucket, c.pc t = .locking bucket → c.lock = none) :
    ∃ lock carray pc, next c (proceed c t) = ⟨lock,carray,Function.update c.pc t pc⟩ ∧
      carray.stride = c.carray.stride ∧ (∀ bucket, pc ≠ .locking bucket) ∧
      cost c.carray.stride.toNat pc < cost c.carray.stride.toNat (c.pc t) ∧
      (lock = c.lock ∨ lock = none ∨ lock = some t) := by
  cases hpc : c.pc t
  case idle => simp [hpc,Pc.isIdle] at hp
  case locking bucket =>
    refine ⟨some t,c.carray,.copying bucket 0,?_,rfl,nofun,by simp [cost],.inr (.inr rfl)⟩
    simp [next,step,proceed,hpc,advance,hfree bucket hpc]
  case copying bucket k =>
    by_cases hk : k < c.carray.stride.toNat
    · have hstep : next c (proceed c t) =
          ⟨c.lock,{ c.carray with
            buf := Function.update c.carray.buf (entry c.carray + k) (bucket k) },
            Function.update c.pc t (.copying bucket (k+1))⟩ := by
        simp only [next,step,proceed,hpc,advance,if_pos hk]
      exact ⟨_,_,_,hstep,rfl,nofun,by simp only [cost]; omega,.inl rfl⟩
    · refine ⟨c.lock,c.carray,.advancing,?_,rfl,nofun,by simp only [cost]; omega,.inl rfl⟩
      simp only [next,step,proceed,hpc,advance,if_neg hk]
  case advancing =>
    refine ⟨c.lock,moveCursor c.carray,.unlocking,?_,rfl,nofun,by simp [cost],.inl rfl⟩
    simp only [next,step,proceed,hpc,advance]
  case unlocking =>
    refine ⟨none,c.carray,.returning,?_,rfl,nofun,by simp [cost],.inr (.inl rfl)⟩
    simp only [next,step,proceed,hpc,advance]
  case returning =>
    refine ⟨c.lock,c.carray,.idle,?_,rfl,nofun,by simp [cost],.inl rfl⟩
    simp only [next,step,proceed,hpc]

variable [Fintype Cpu]

omit [DecidableEq Cpu] [Fintype Cpu] in
/-- Where no CPU is stuck, a context can run that does not wait. -/
lemma exists_runnable (hholder : ∀ t, Inside (c.pc t) ↔ c.lock = some t)
    (hstuck : ∀ cpu, ¬ Stuck c cpu) {t : Cpu × Level} (ht : (c.pc t).isIdle = false) :
    ∃ t', (c.pc t').isIdle = false ∧ (∀ bucket, c.pc t' = .locking bucket → c.lock = none) ∧
      (t'.2 = .task → (c.pc (t'.1,.pmi)).isIdle = true) := by
  have hinside : ∀ t', Inside (c.pc t') → (c.pc t').isIdle = false ∧
      ∀ bucket, c.pc t' ≠ .locking bucket := by
    intro t' hin
    cases hp : c.pc t' <;> rw [hp] at hin
    case idle | locking | returning => exact hin.elim
    all_goals exact ⟨rfl,nofun⟩
  cases hlock : c.lock with
  | none =>
    -- the PMI first, where there is one
    by_cases hpmi : (c.pc (t.1,.pmi)).isIdle = true
    · exact ⟨t,ht,fun _ _ => rfl,fun _ => hpmi⟩
    · exact ⟨(t.1,.pmi),by simpa using hpmi,fun _ _ => rfl,nofun⟩
  | some t' =>
    obtain ⟨cpu,level⟩ := t'
    obtain ⟨hbusy,hwait⟩ := hinside _ ((hholder _).mpr hlock)
    by_cases hpmi : level = .task → (c.pc (cpu,.pmi)).isIdle = true
    · exact ⟨(cpu,level),hbusy,fun b hb => absurd hb (hwait b),hpmi⟩
    · push Not at hpmi
      obtain ⟨rfl,hp⟩ := hpmi
      refine ⟨(cpu,.pmi),by simpa using hp,fun b hb => ?_,nofun⟩
      exact absurd ⟨⟨b,hb⟩,hlock⟩ (hstuck cpu)

/-- Where no CPU is stuck, every write can be brought to its end. -/
lemma exists_finish {n : ℕ} {p : Atomic.State (Cpu × Level) Memory Unit Carray}
    (h : Follows c p) (hstuck : ∀ cpu, ¬ Stuck c cpu)
    (hn : ∑ t, cost c.carray.stride.toNat (c.pc t) = n) :
    ∃ bs, Admits next Schedulable c bs ∧ ∀ t, ((bs.foldl next c).pc t).isIdle = true := by
  induction n using Nat.strong_induction_on generalizing c p with
  | _ n ih =>
    by_cases hidle : ∀ t, (c.pc t).isIdle = true
    · exact ⟨[],trivial,hidle⟩
    · push Not at hidle
      obtain ⟨t0,ht0⟩ := hidle
      obtain ⟨t,hbusy,hwait,hpmi⟩ := exists_runnable h.holder hstuck (by simpa using ht0)
      obtain ⟨lock,carray,pc,hnext,hstride,hpc,hcost,hlock⟩ := next_proceed c hbusy hwait
      obtain ⟨-,q,-,hq,-⟩ := h.next (proceed c t)
      have hsum : ∑ t', cost carray.stride.toNat (Function.update c.pc t pc t') < n := by
        rw [← hn,hstride]
        refine Finset.sum_lt_sum (fun t' _ => ?_) ⟨t,Finset.mem_univ t,?_⟩
        · by_cases he : t' = t
          · subst he
            rw [Function.update_self]
            exact hcost.le
          · rw [Function.update_of_ne he]
        · rwa [Function.update_self]
      rw [hnext] at hq
      have hgo : ∀ cpu, ¬ Stuck ⟨lock,carray,Function.update c.pc t pc⟩ cpu := by
        rintro cpu ⟨⟨bucket,hb⟩,hl⟩
        have ht : (cpu,Level.pmi) ≠ t := by
          rintro rfl
          simp only [Function.update_self] at hb
          exact hpc bucket hb
        simp only [Function.update_of_ne ht] at hb
        rcases hlock with rfl | rfl | rfl
        · exact hstuck cpu ⟨⟨bucket,hb⟩,hl⟩
        · cases hl
        · -- a task takes the lock only while no PMI is handled on its CPU
          obtain rfl := Option.some.inj hl
          have hfree := hpmi rfl
          simp only [hb,Pc.isIdle] at hfree
          cases hfree
      obtain ⟨bs,hbs,hend⟩ := ih _ hsum hq hgo rfl
      refine ⟨proceed c t :: bs,⟨?_,?_⟩,?_⟩
      · rw [Schedulable,who_proceed]
        exact hpmi
      · rwa [hnext]
      · rwa [List.foldl_cons,hnext]

/-- The deadlock of the note above `write_clist`, exactly. In any state of any run, all writes
under way can still end if and only if on no CPU a PMI waits for the lock that the task it
interrupted holds; and where only PMIs write, there is no such CPU. -/
theorem deadlock_iff (carray : Carray) (as : List (Action (Cpu × Level))) :
    let c := as.foldl next (initial carray)
    ((∃ bs, Admits next Schedulable c bs ∧ ∀ t, ((bs.foldl next c).pc t).isIdle = true) ↔
      ∀ cpu, ¬ Stuck c cpu) ∧
    ((∀ t bucket, .call t bucket ∈ as → t.2 = .pmi) → ∀ cpu, ¬ Stuck c cpu) := by
  intro c
  obtain ⟨p,h⟩ := exists_follows carray as
  refine ⟨⟨?_,fun hstuck => exists_finish h hstuck rfl⟩,?_⟩
  · rintro ⟨bs,hbs,hidle⟩ cpu hc
    have hinv : Stuck (bs.foldl next c) cpu ∧ ∃ p, Follows (bs.foldl next c) p := by
      refine hbs.invariant (I := fun c => Stuck c cpu ∧ ∃ p, Follows c p) ?_ ⟨hc,p,h⟩
      rintro d a ⟨hd,q,hq⟩ ha
      obtain ⟨-,r,-,hr,-⟩ := hq.next a
      exact ⟨stuck_next hq.holder hd ha,r,hr⟩
    obtain ⟨⟨⟨bucket,hb⟩,-⟩,-⟩ := hinv
    have hfree := hidle (cpu,.pmi)
    rw [hb] at hfree
    cases hfree
  · rintro hcalls cpu ⟨-,hl⟩
    have htask : (c.pc (cpu,.task)).isIdle = true := by
      have hadm : Admits next (fun _ a => ∀ bucket, a ≠ .call (cpu,Level.task) bucket)
          (initial carray) as := by
        refine admits_of_forall fun a ha _ bucket he => ?_
        cases hcalls _ bucket (he ▸ ha)
      exact hadm.invariant (I := fun c => (c.pc (cpu,Level.task)).isIdle = true)
        (fun _ _ hI ha => isIdle_next hI ha) rfl
    have hin := (h.holder (cpu,.task)).mpr hl
    change Inside (c.pc (cpu,.task)) at hin
    cases hp : c.pc (cpu,.task) <;> rw [hp] at htask hin
    case idle => exact hin
    all_goals cases htask

/-- A PMI that comes while the task of its CPU copies a sample. -/
example :
    let as : List (Action (Fin 1 × Level)) :=
      [.call (0,.task) (fun _ => 1),.step (0,.task),.step (0,.task),.call (0,.pmi) (fun _ => 2)]
    Admits next Schedulable (initial ⟨3,8,0,fun _ => 0⟩) as ∧
      Stuck (as.foldl next (initial ⟨3,8,0,fun _ => 0⟩)) 0 :=
  ⟨by decide,⟨_,rfl⟩,rfl⟩

end Deadlock
end PmuMin.LockedArray.Contended
