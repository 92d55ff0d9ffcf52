import PmuMin.Library.Machine
import Mathlib.Algebra.BigOperators.Group.Finset.Piecewise
import Mathlib.Algebra.Ring.Nat
import Mathlib.Data.Fintype.Basic
import Mathlib.Data.List.ReduceOption
import Mathlib.Logic.Function.Basic

/-! Linearizability. The atomic object lets its participants call and return at any time and
serves each call in one indivisible step in between; a machine is linearizable if the atomic
object has all its histories. -/
namespace Atomic
variable {ι Op Res A σ α : Type*}

/-- What the participants of a shared object see. -/
inductive Event (ι Op Res : Type*)
  | call (t : ι) (op : Op)
  | ret (t : ι) (res : Res)
  deriving DecidableEq, Repr

/-- Where a participant stands: without a call, before and after the step that serves it. -/
inductive Phase (Op Res : Type*)
  | idle
  | called (op : Op)
  | served (res : Res)

structure State (ι Op Res A : Type*) where
  object : A
  phase : ι → Phase Op Res

def initial (a : A) : State ι Op Res A := ⟨a,fun _ => .idle⟩

variable [DecidableEq ι]

/-- The histories of the atomic object; `spec a op a' res` is a service it may give. -/
inductive Runs (spec : A → Op → A → Res → Prop) (p : State ι Op Res A) :
    List (Event ι Op Res) → State ι Op Res A → Prop
  | refl : Runs spec p [] p
  | call {h q} (t : ι) (op : Op) (run : Runs spec p h q) (hq : q.phase t = .idle) :
      Runs spec p (h ++ [.call t op]) ⟨q.object,Function.update q.phase t (.called op)⟩
  | serve {h q} (t : ι) {op : Op} {a : A} {res : Res} (run : Runs spec p h q)
      (hq : q.phase t = .called op) (hs : spec q.object op a res) :
      Runs spec p h ⟨a,Function.update q.phase t (.served res)⟩
  | ret {h q} (t : ι) {res : Res} (run : Runs spec p h q) (hq : q.phase t = .served res) :
      Runs spec p (h ++ [.ret t res]) ⟨q.object,Function.update q.phase t .idle⟩

theorem Runs.trans {spec : A → Op → A → Res → Prop} {p q r : State ι Op Res A}
    {h k : List (Event ι Op Res)} (hpq : Runs spec p h q) (hqr : Runs spec q k r) :
    Runs spec p (h ++ k) r := by
  induction hqr with
  | refl => simpa using hpq
  | call t op _ hq ih => rw [← List.append_assoc]; exact ih.call t op hq
  | serve t _ hq hs ih => exact ih.serve t hq hs
  | ret t _ hq ih => rw [← List.append_assoc]; exact ih.ret t hq

/-- What the atomic object does in one step of a machine behind it: at most one thing, which shows
as an event or serves an operation. -/
inductive Step (spec : A → Op → A → Res → Prop) (p : State ι Op Res A) :
    Option (Event ι Op Res) → Option (ι × Op × Res) → State ι Op Res A → Prop
  | skip : Step spec p none none p
  | call (t : ι) (op : Op) (hp : p.phase t = .idle) :
      Step spec p (some (.call t op)) none ⟨p.object,Function.update p.phase t (.called op)⟩
  | serve (t : ι) {op : Op} {a : A} {res : Res} (hp : p.phase t = .called op)
      (hs : spec p.object op a res) :
      Step spec p none (some (t,op,res)) ⟨a,Function.update p.phase t (.served res)⟩
  | ret (t : ι) {res : Res} (hp : p.phase t = .served res) :
      Step spec p (some (.ret t res)) none ⟨p.object,Function.update p.phase t .idle⟩

/-- The history of a run of a machine that shows some of its steps. -/
def history (step : σ → α → σ × Option (Event ι Op Res)) (s : σ) (as : List α) :
    List (Event ι Op Res) := (Machine.outputs step s as).reduceOption

omit [DecidableEq ι] in
lemma history_cons (step : σ → α → σ × Option (Event ι Op Res)) (s : σ) (a : α) (as : List α) :
    history step s (a :: as) = (step s a).2.toList ++ history step (step s a).1 as := by
  cases h : (step s a).2 <;> simp [history,Machine.outputs,h]

/-- Linearizability by simulation. Where the atomic object can follow every step that a condition
admits, it has the histories of all admitted runs, and what it stands for holds at their end. -/
theorem exists_runs_of_simulation (step : σ → α → σ × Option (Event ι Op Res))
    {pre : σ → α → Prop} {spec : A → Op → A → Res → Prop} (R : σ → State ι Op Res A → Prop)
    (hstep : ∀ s p a, R s p → pre s a →
      ∃ q, Runs spec p (step s a).2.toList q ∧ R (step s a).1 q) {s : σ} {p : State ι Op Res A}
    (hs : R s p) {as : List α} (hadm : Machine.Admits (fun s a => (step s a).1) pre s as) :
    ∃ q, Runs spec p (history step s as) q ∧ R (as.foldl (fun s a => (step s a).1) s) q := by
  induction as generalizing s p with
  | nil => exact ⟨p,.refl,hs⟩
  | cons b bs ih =>
    obtain ⟨q,hq,hR⟩ := hstep s p b hs hadm.1
    obtain ⟨r,hr,hend⟩ := ih hR hadm.2
    refine ⟨r,?_,hend⟩
    rw [history_cons]
    exact hq.trans hr

/-- The operations a participant calls in a history. -/
def calls (t : ι) (h : List (Event ι Op Res)) : List Op :=
  h.filterMap fun e => match e with
    | .call t' op => if t' = t then some op else none
    | .ret _ _ => none

/-- The results a participant gets in a history. -/
def results (t : ι) (h : List (Event ι Op Res)) : List Res :=
  h.filterMap fun e => match e with
    | .call _ _ => none
    | .ret t' res => if t' = t then some res else none

/-- A sequential run: each entry is a participant with its operation and the result. -/
inductive Legal (spec : A → Op → A → Res → Prop) (a : A) : List (ι × Op × Res) → A → Prop
  | nil : Legal spec a [] a
  | snoc {log b c} (t : ι) {op : Op} {res : Res} (run : Legal spec a log b)
      (hs : spec b op c res) : Legal spec a (log ++ [(t,op,res)]) c

/-- The entries of a participant. -/
def own (t : ι) (log : List (ι × Op × Res)) : List (Op × Res) :=
  log.filterMap fun e => if e.1 = t then some e.2 else none

lemma own_snoc (t t' : ι) (log : List (ι × Op × Res)) (e : Op × Res) :
    own t (log ++ [(t',e)]) = if t' = t then own t log ++ [e] else own t log := by
  by_cases h : t' = t <;> simp [own,h]

/-- How far the entries of a participant account for its events. -/
def Accounts (t : ι) (h : List (Event ι Op Res)) (log : List (ι × Op × Res)) :
    Phase Op Res → Prop
  | .idle => calls t h = (own t log).map Prod.fst ∧ results t h = (own t log).map Prod.snd
  | .called op =>
    calls t h = (own t log).map Prod.fst ++ [op] ∧ results t h = (own t log).map Prod.snd
  | .served res =>
    calls t h = (own t log).map Prod.fst ∧ results t h ++ [res] = (own t log).map Prod.snd

lemma Accounts.congr {t : ι} {h h' : List (Event ι Op Res)} {log log' : List (ι × Op × Res)}
    {p : Phase Op Res} (ha : Accounts t h log p) (hc : calls t h' = calls t h)
    (hr : results t h' = results t h) (ho : own t log' = own t log) : Accounts t h' log' p := by
  cases p <;> simpa only [Accounts,hc,hr,ho] using ha

/-- A history of the atomic object with a sequential run behind it, in which every participant
finds its own calls in their order, with the results it got. -/
structure Explains (spec : A → Op → A → Res → Prop) (a : A) (h : List (Event ι Op Res))
    (log : List (ι × Op × Res)) (q : State ι Op Res A) : Prop where
  runs : Runs spec (initial a) h q
  legal : Legal spec a log q.object
  accounts : ∀ t, Accounts t h log (q.phase t)

section Explains
variable {spec : A → Op → A → Res → Prop} {a : A} {h : List (Event ι Op Res)}
  {log : List (ι × Op × Res)} {q : State ι Op Res A}

lemma explains_initial (spec : A → Op → A → Res → Prop) (a : A) :
    Explains (ι := ι) spec a [] [] (initial a) :=
  ⟨.refl,.nil,fun _ => ⟨rfl,rfl⟩⟩

lemma Explains.call (he : Explains spec a h log q) (t : ι) (op : Op) (hq : q.phase t = .idle) :
    Explains spec a (h ++ [.call t op]) log ⟨q.object,Function.update q.phase t (.called op)⟩ := by
  refine ⟨he.runs.call t op hq,he.legal,fun t' => ?_⟩
  have ht := he.accounts t'
  by_cases heq : t' = t
  · subst heq
    rw [hq] at ht
    simp only [Function.update_self]
    exact ⟨by simpa [calls] using ht.1,by simpa [results] using ht.2⟩
  · simp only [Function.update_of_ne heq]
    exact ht.congr (by simp [calls,Ne.symm heq]) (by simp [results]) rfl

lemma Explains.serve (he : Explains spec a h log q) (t : ι) {op : Op} {b : A} {res : Res}
    (hq : q.phase t = .called op) (hs : spec q.object op b res) :
    Explains spec a h (log ++ [(t,op,res)]) ⟨b,Function.update q.phase t (.served res)⟩ := by
  refine ⟨he.runs.serve t hq hs,he.legal.snoc t hs,fun t' => ?_⟩
  have ht := he.accounts t'
  by_cases heq : t' = t
  · subst heq
    rw [hq] at ht
    have hown := own_snoc t' t' log (op,res)
    rw [if_pos rfl] at hown
    simp only [Function.update_self]
    exact ⟨by simpa [hown] using ht.1,by simpa [hown] using ht.2⟩
  · simp only [Function.update_of_ne heq]
    have hown := own_snoc t' t log (op,res)
    rw [if_neg (Ne.symm heq)] at hown
    exact ht.congr rfl rfl hown

lemma Explains.ret (he : Explains spec a h log q) (t : ι) {res : Res}
    (hq : q.phase t = .served res) :
    Explains spec a (h ++ [.ret t res]) log ⟨q.object,Function.update q.phase t .idle⟩ := by
  refine ⟨he.runs.ret t hq,he.legal,fun t' => ?_⟩
  have ht := he.accounts t'
  by_cases heq : t' = t
  · subst heq
    rw [hq] at ht
    simp only [Function.update_self]
    exact ⟨by simpa [calls] using ht.1,by simpa [results] using ht.2⟩
  · simp only [Function.update_of_ne heq]
    exact ht.congr (by simp [calls]) (by simp [results,Ne.symm heq]) rfl

/-- One more step, with what it shows and what it serves. -/
theorem Explains.step (he : Explains spec a h log q) {e : Option (Event ι Op Res)}
    {served : Option (ι × Op × Res)} {r : State ι Op Res A} (hr : Step spec q e served r) :
    Explains spec a (h ++ e.toList) (log ++ served.toList) r := by
  cases hr with
  | skip => simpa using he
  | call t op hq => simpa using he.call t op hq
  | serve t hq hs => simpa using he.serve t hq hs
  | ret t hq => simpa using he.ret t hq

/-- Every history of the atomic object has such a run behind it. -/
theorem Runs.exists_explains (hr : Runs spec (initial a) h q) : ∃ log, Explains spec a h log q := by
  induction hr with
  | refl => exact ⟨[],explains_initial spec a⟩
  | call t op _ hq ih =>
    obtain ⟨log,he⟩ := ih
    exact ⟨log,he.call t op hq⟩
  | serve t _ hq hs ih =>
    obtain ⟨log,he⟩ := ih
    exact ⟨_,he.serve t hq hs⟩
  | ret t _ hq ih =>
    obtain ⟨log,he⟩ := ih
    exact ⟨log,he.ret t hq⟩

end Explains

lemma zip_map_take {α β : Type*} (l : List (α × β)) (k : ℕ) :
    (l.map Prod.fst).zip ((l.map Prod.snd).take k) = l.take k := by
  induction l generalizing k with
  | nil => simp
  | cons e l ih =>
    cases k with
    | zero => simp
    | succ k => simp [ih]

/-- What a participant got back is what its entries say, up to the one not yet returned. -/
lemma Accounts.zip_returned {t : ι} {h : List (Event ι Op Res)} {log : List (ι × Op × Res)}
    {p : Phase Op Res} (ha : Accounts t h log p) :
    (calls t h).zip (results t h) <+: own t log := by
  have hown : ((own t log).map Prod.fst).zip ((own t log).map Prod.snd) = own t log :=
    (List.zip_of_prod rfl rfl).symm
  cases p with
  | idle => rw [ha.1,ha.2,hown]
  | called op =>
    have hzip : (calls t h).zip (results t h) = own t log := by
      rw [ha.1,ha.2,← List.append_nil ((own t log).map Prod.snd),List.zip_append (by simp),hown]
      simp
    rw [hzip]
  | served res =>
    have hpre : results t h <+: (own t log).map Prod.snd := ⟨[res],ha.2⟩
    rw [ha.1,List.prefix_iff_eq_take.mp hpre,zip_map_take]
    exact List.take_prefix ..

/-- The operations of the entries were called. -/
lemma Accounts.own_called {t : ι} {h : List (Event ι Op Res)} {log : List (ι × Op × Res)}
    {p : Phase Op Res} (ha : Accounts t h log p) : (own t log).map Prod.fst <+: calls t h := by
  cases p with
  | idle | served res => rw [ha.1]
  | called op => exact ⟨[op],ha.1.symm⟩

/-- A sum over the entries, participant by participant. -/
lemma sum_own [Fintype ι] (f : Op × Res → ℕ) (log : List (ι × Op × Res)) :
    ∑ t, ((own t log).map f).sum = (log.map fun e => f e.2).sum := by
  induction log with
  | nil => simp [own]
  | cons e log ih =>
    have hcons : ∀ t, ((own t (e :: log)).map f).sum =
        (if e.1 = t then f e.2 else 0) + ((own t log).map f).sum := by
      intro t
      by_cases h : e.1 = t <;> simp [own,h]
    rw [List.map_cons,List.sum_cons,← ih,Finset.sum_congr rfl fun t _ => hcons t,
      Finset.sum_add_distrib,Finset.sum_ite_eq]
    simp

end Atomic
