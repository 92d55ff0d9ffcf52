import PmuMin.Tracker.Concurrent
import PmuMin.Tracker.Ledger
import Mathlib.Algebra.Order.BigOperators.Group.List
import Mathlib.Algebra.Order.BigOperators.Group.Finset

/-! The concurrent hash tracker is linearizable: its callers cannot tell it from one that runs the
four functions of `ptracker_hash.c` one at a time. -/
namespace PmuMin.Hash.Concurrent
open Machine

variable {T Task Addr : Type} [DecidableEq T] [DecidableEq Addr] (hash : Pid → Bucket)
  (pid : Task → Pid)

/-- One call of the sequential tracker, whatever becomes of its allocation and its trylock. -/
def spec (s : State) (op : Op Task) (s' : State) (res : Result) : Prop :=
  ∃ ctx, (tracker hash pid).step s ⟨ctx,op⟩ = (s',res)

/-- The same, or with the queries for data left open: they return any pointer. -/
def served (exact : Bool) : State → Op Task → State → Result → Prop :=
  match exact with
  | true => spec hash pid
  | false => fun s op s' res => spec hash pid s op s' res ∨
      s' = s ∧ ∃ task data, op = .queryData task ∧ res = .pointer data

/-- The node that the next step of a context gives to `kfree`. -/
def freed : Pc Task Addr → Option Addr
  | .freeing cur _ => some cur
  | _ => none

/-- No node is freed that a `query_data_tracker` has found and has still to read. -/
def Clean (c : Config T Task Addr) : Action T Task Addr → Prop
  | .step t _ => ∀ cur ∈ freed (c.pc t), ∀ t', c.pc t' ≠ .reading cur
  | _ => True

instance [Fintype T] [DecidableEq Task] (c : Config T Task Addr) : DecidablePred (Clean c)
  | .call _ _ | .ret _ => inferInstanceAs (Decidable True)
  | .step t _ => inferInstanceAs (Decidable (∀ cur ∈ freed (c.pc t), ∀ t', c.pc t' ≠ .reading cur))

/-- What a query returns for the node it found, if any. -/
def Query.answer : Query → Option TpNode → Result
  | .exist,n => .flag n.isSome
  | .data,n => .pointer (n.elim NULL TpNode.data)

/-- A node pointer that the context is going to follow. -/
def pointer : Pc Task Addr → Option Addr
  | .addLocking _ tp | .linking _ tp => some tp
  | .delUnlocking cur | .queryUnlocking _ cur => cur
  | .taking cur | .freeing cur _ | .reading cur => some cur
  | _ => none

/-- Between the walk of `query_data_tracker` and its read: the datum is settled, or it is left
open. -/
def Reads (exact : Bool) (m : Memory T Addr) (cur : Addr)
    (ph : Atomic.Phase (Op Task) Result) : Prop :=
  match exact with
  | true => ∃ n, m.node cur = some n ∧ ph = .served (.pointer n.data)
  | false => ∃ task, ph = .called (.queryData task)

/-- How far the atomic tracker has come with the call that a context is in. -/
def Owes (exact : Bool) (m : Memory T Addr) : Pc Task Addr → Atomic.Phase (Op Task) Result → Prop
  | .idle,ph => ph = .idle
  | .allocating task data,ph => ph = .called (.add task data)
  | .addLocking task tp,ph | .linking task tp,ph =>
    ∃ data, m.node tp = some ⟨pid task,data⟩ ∧ ph = .called (.add task data)
  | .counting,ph | .addUnlocking,ph => ph = .served (.code 0)
  | .delLocking task,ph | .searching task _,ph | .discounting task _,ph | .unlinking task _,ph =>
    ph = .called (.del task)
  | .delUnlocking none,ph => ph = .served (.pointer NULL)
  | .delUnlocking (some cur),ph | .taking cur,ph =>
    ∃ n, m.node cur = some n ∧ ph = .served (.pointer n.data)
  | .freeing _ data,ph => ph = .served (.pointer data)
  | .queryLocking k task,ph | .querying k task _,ph => ph = .called (k.op task)
  | .queryUnlocking k none,ph => ph = .served (k.answer none)
  | .queryUnlocking .exist (some _),ph => ph = .served (.flag true)
  | .queryUnlocking .data (some cur),ph | .reading cur,ph => Reads exact m cur ph
  | .returning res,ph => ph = .served res
  | .fault _,_ => exact = false

omit [DecidableEq T] [DecidableEq Addr] in
/-- A context relies on no more than the node it points to. -/
lemma Owes.frame {exact : Bool} {m m' : Memory T Addr} {pc : Pc Task Addr}
    {ph : Atomic.Phase (Op Task) Result} (h : Owes pid exact m pc ph)
    (hm : ∀ a n, (exact = true ∨ ∀ cur, pc ≠ .reading cur) → pointer pc = some a →
      m.node a = some n → m'.node a = some n) : Owes pid exact m' pc ph := by
  cases pc
  case addLocking task tp | linking task tp =>
    obtain ⟨data,hn,hph⟩ := h
    exact ⟨data,hm _ _ (.inr (by simp)) rfl hn,hph⟩
  case taking cur =>
    obtain ⟨n,hn,hph⟩ := h
    exact ⟨n,hm _ _ (.inr (by simp)) rfl hn,hph⟩
  case delUnlocking cur =>
    cases cur with
    | none => exact h
    | some cur =>
      obtain ⟨n,hn,hph⟩ := h
      exact ⟨n,hm _ _ (.inr (by simp)) rfl hn,hph⟩
  case queryUnlocking k cur =>
    cases k <;> cases cur <;> try exact h
    cases exact with
    | false => exact h
    | true =>
      obtain ⟨n,hn,hph⟩ := h
      exact ⟨n,hm _ _ (.inl rfl) rfl hn,hph⟩
  case reading cur =>
    cases exact with
    | false => exact h
    | true =>
      obtain ⟨n,hn,hph⟩ := h
      exact ⟨n,hm _ _ (.inl rfl) rfl hn,hph⟩
  all_goals exact h

/-- What `tracked_count` still lacks in the middle of a critical section. -/
def drift : Pc Task Addr → BitVec 32
  | .counting | .unlinking .. => 1
  | _ => 0

def Config.drift (c : Config T Task Addr) : BitVec 32 :=
  match c.memory.lock with
  | some t => Concurrent.drift (c.pc t)
  | none => 0

/-- The atomic tracker behind a state: it holds what the chains hold, its count is ahead by the
drift, and it has served the calls as far as the contexts have come. -/
structure Follows (exact : Bool) (c : Config T Task Addr) (table : Bucket → List (Addr × TpNode))
    (p : Atomic.State T (Op Task) Result State) : Prop where
  safe : Safe hash pid c table
  map : p.object.trackedMap = List.map Prod.snd ∘ table
  count : p.object.trackedCount = c.memory.trackedCount + c.drift
  owes : ∀ t, Owes pid exact c.memory (c.pc t) (p.phase t)

omit [DecidableEq T] [DecidableEq Addr] in
theorem follows_initial (exact : Bool) :
    Follows hash pid exact (initial : Config T Task Addr) (fun _ => []) (Atomic.initial Hash.trackerInit) where
  safe := safe_initial hash pid
  map := rfl
  count := rfl
  owes _ := rfl

section Answers
variable {id : Pid} {chain : List (Addr × TpNode)} {cur : Addr} {n : TpNode}

omit [DecidableEq Addr] in
/-- A walk that has come to the end has seen no node of the pid. -/
lemma Walk.find?_eq_none (h : Walk id chain none) :
    (chain.map Prod.snd).find? (fun n => n.id = id) = none := by
  obtain ⟨pre,post,rfl,hcur,hpre⟩ := h
  cases post with
  | nil => simpa using fun a b hb => hpre (a,b) hb
  | cons e post => simp at hcur

omit [DecidableEq Addr] in
lemma Found.find?_eq (h : Found id chain cur n) :
    (chain.map Prod.snd).find? (fun n => n.id = id) = some n := by
  obtain ⟨pre,post,rfl,hid,hpre⟩ := h
  have hnone : (pre.map Prod.snd).find? (fun n => n.id = id) = none := by
    simpa using fun a b hb => hpre (a,b) hb
  rw [List.map_append,List.find?_append,hnone]
  simp [hid]

end Answers

section Serves
variable {hash pid} {s : State} {task : Task}

lemma spec_add (data : Word) :
    spec hash pid s (.add task data)
      ⟨Function.update s.trackedMap (hash (pid task))
        (⟨pid task,data⟩ :: s.trackedMap (hash (pid task))),s.trackedCount + 1⟩ (.code 0) :=
  ⟨⟨0,true,true⟩,rfl⟩

lemma spec_add_failed (data : Word) : spec hash pid s (.add task data) s (.code (-ENOMEM)) :=
  ⟨⟨0,false,true⟩,rfl⟩

lemma spec_del_none
    (hf : (s.trackedMap (hash (pid task))).find? (fun n => n.id = pid task) = none) :
    spec hash pid s (.del task) s (.pointer NULL) := by
  refine ⟨⟨0,true,true⟩,?_⟩
  simp [Tracker.step,tracker,trackerDel,unlinkNode_eq,hf]

lemma spec_del_some {n : TpNode}
    (hf : (s.trackedMap (hash (pid task))).find? (fun n => n.id = pid task) = some n) :
    spec hash pid s (.del task)
      ⟨Function.update s.trackedMap (hash (pid task))
        ((s.trackedMap (hash (pid task))).eraseP (fun n => n.id = pid task)),
        s.trackedCount - 1⟩ (.pointer n.data) := by
  refine ⟨⟨0,true,true⟩,?_⟩
  simp [Tracker.step,tracker,trackerDel,unlinkNode_eq,hf]

lemma spec_query (k : Query) :
    spec hash pid s (k.op task) s
      (k.answer ((s.trackedMap (hash (pid task))).find? (fun n => n.id = pid task))) := by
  refine ⟨⟨0,true,true⟩,?_⟩
  cases k with
  | exist => simp [Query.op,Query.answer,Tracker.step,tracker,queryTracker,findNode_eq]
  | data =>
    simp only [Query.op,Query.answer,Tracker.step,tracker,queryDataTracker,findNode_eq]
    cases (s.trackedMap (hash (pid task))).find? (fun n => n.id = pid task) <;> rfl

lemma spec_query_missed (k : Query) : spec hash pid s (k.op task) s k.missed := by
  refine ⟨⟨0,true,false⟩,?_⟩
  cases k <;> rfl

lemma served_of_spec {exact : Bool} {op : Op Task} {s' : State} {res : Result}
    (h : spec hash pid s op s' res) : served hash pid exact s op s' res := by
  cases exact with
  | true => exact h
  | false => exact .inl h

end Serves

section Drift
variable {hash pid} {c : Config T Task Addr} {table : Bucket → List (Addr × TpNode)} {t : T}
  {m' : Memory T Addr} {p' : Pc Task Addr}

omit [DecidableEq T] [DecidableEq Addr] in
/-- A context in the critical section is the one whose drift counts. -/
lemma Safe.drift_eq (h : Safe hash pid c table) (hin : Inside (c.pc t)) :
    c.drift = drift (c.pc t) := by
  simp only [Config.drift,(h.holder t).mp hin]

omit [DecidableEq Addr] in
lemma Safe.drift_inside (h : Safe hash pid ⟨m',Function.update c.pc t p'⟩ table)
    (hin : Inside p') : Config.drift ⟨m',Function.update c.pc t p'⟩ = drift p' := by
  have hd := h.drift_eq (t := t) (by simpa only [Function.update_self] using hin)
  simpa only [Function.update_self] using hd

omit [DecidableEq Addr] in
lemma Safe.drift_outside (h : Safe hash pid c table) (m' : Memory T Addr)
    (p' : Pc Task Addr) (hout : ¬ Inside (c.pc t)) (hlock : m'.lock = c.memory.lock) :
    Config.drift ⟨m',Function.update c.pc t p'⟩ = c.drift := by
  simp only [Config.drift,hlock]
  cases hl : c.memory.lock with
  | none => rfl
  | some t' =>
    have hne : t' ≠ t := by
      rintro rfl
      exact hout ((h.holder t').mpr hl)
    simp only [Function.update_of_ne hne]

end Drift

section Steps
variable {hash pid} {exact : Bool} {c : Config T Task Addr} {table : Bucket → List (Addr × TpNode)}
  {p : Atomic.State T (Op Task) Result State} {t : T} {m' : Memory T Addr} {p' : Pc Task Addr}

omit [DecidableEq Addr] in
theorem Follows.update (h : Follows hash pid exact c table p)
    {table' : Bucket → List (Addr × TpNode)}
    (hsafe : Safe hash pid ⟨m',Function.update c.pc t p'⟩ table') {s : State}
    {ph : Atomic.Phase (Op Task) Result} (hmap : s.trackedMap = List.map Prod.snd ∘ table')
    (hcount : s.trackedCount =
      m'.trackedCount + Config.drift ⟨m',Function.update c.pc t p'⟩)
    (howes : Owes pid exact m' p' ph)
    (hkept : ∀ t', t' ≠ t → ∀ a n, (exact = true ∨ ∀ cur, c.pc t' ≠ .reading cur) →
      pointer (c.pc t') = some a → c.memory.node a = some n → m'.node a = some n) :
    Follows hash pid exact ⟨m',Function.update c.pc t p'⟩ table' ⟨s,Function.update p.phase t ph⟩ where
  safe := hsafe
  map := hmap
  count := hcount
  owes t' := by
    by_cases he : t' = t
    · subst he
      simpa only [Function.update_self] using howes
    · simp only [Function.update_of_ne he]
      exact (h.owes t').frame pid (hkept t' he)

omit [DecidableEq T] [DecidableEq Addr] in
lemma Follows.trackedMap_eq (h : Follows hash pid exact c table p) (b : Bucket) :
    p.object.trackedMap b = (table b).map Prod.snd :=
  congrFun h.map b

section Counts
variable {p₀ : Pc Task Addr}

omit [DecidableEq T] [DecidableEq Addr] in
lemma Follows.count_own (h : Follows hash pid exact c table p) (hp : c.pc t = p₀)
    (hin : Inside p₀) : p.object.trackedCount = c.memory.trackedCount + drift p₀ := by
  subst hp
  rw [h.count,h.safe.drift_eq hin]

omit [DecidableEq Addr] in
/-- A step outside the critical section. -/
lemma Follows.count_outside (h : Follows hash pid exact c table p) (hp : c.pc t = p₀)
    (hout : ¬ Inside p₀) (hlock : m'.lock = c.memory.lock)
    (hm : m'.trackedCount = c.memory.trackedCount) :
    p.object.trackedCount = m'.trackedCount + Config.drift ⟨m',Function.update c.pc t p'⟩ := by
  subst hp
  rw [h.safe.drift_outside m' p' hout hlock,hm,h.count]

omit [DecidableEq Addr] in
lemma Follows.count_enter (h : Follows hash pid exact c table p)
    {table' : Bucket → List (Addr × TpNode)}
    (hsafe : Safe hash pid ⟨m',Function.update c.pc t p'⟩ table') (hfree : c.memory.lock = none)
    (hin : Inside p') (hdrift : drift p' = 0) (hm : m'.trackedCount = c.memory.trackedCount) :
    p.object.trackedCount = m'.trackedCount + Config.drift ⟨m',Function.update c.pc t p'⟩ := by
  have hcount := h.count
  simp only [Config.drift,hfree] at hcount
  rw [hsafe.drift_inside hin,hdrift,hm,hcount]

omit [DecidableEq Addr] in
/-- A step within the critical section, by which the count and its drift change as they may. -/
lemma Follows.count_inside (h : Follows hash pid exact c table p)
    {table' : Bucket → List (Addr × TpNode)}
    (hsafe : Safe hash pid ⟨m',Function.update c.pc t p'⟩ table') (hp : c.pc t = p₀)
    (hin : Inside p₀) (hin' : Inside p') {n : BitVec 32}
    (hn : p.object.trackedCount = c.memory.trackedCount + drift p₀ →
      n = m'.trackedCount + drift p') :
    n = m'.trackedCount + Config.drift ⟨m',Function.update c.pc t p'⟩ := by
  rw [hsafe.drift_inside hin',← hn (h.count_own hp hin)]

end Counts

variable (hash pid exact p) in
/-- The atomic tracker can go on to follow the state that a step leaves. -/
def Continues (c' : Config T Task Addr) (table' : Bucket → List (Addr × TpNode)) : Prop :=
  ∃ q, Atomic.Runs (served hash pid exact) p [] q ∧ Follows hash pid exact c' table' q

omit [DecidableEq Addr] in
/-- A step that the atomic tracker does not take part in. -/
theorem Follows.silent (h : Follows hash pid exact c table p)
    (hsafe : Safe hash pid ⟨m',Function.update c.pc t p'⟩ table)
    (hcount : p.object.trackedCount =
      m'.trackedCount + Config.drift ⟨m',Function.update c.pc t p'⟩)
    (howes : Owes pid exact m' p' (p.phase t))
    (hkept : ∀ t', t' ≠ t → ∀ a n, (exact = true ∨ ∀ cur, c.pc t' ≠ .reading cur) →
      pointer (c.pc t') = some a → c.memory.node a = some n → m'.node a = some n) :
    Continues hash pid exact p ⟨m',Function.update c.pc t p'⟩ table := by
  refine ⟨p,.refl,?_⟩
  have hf := h.update hsafe h.map hcount howes hkept
  rwa [Function.update_eq_self] at hf

omit [DecidableEq Addr] in
/-- A step at which the atomic tracker serves the call. -/
theorem Follows.serves (h : Follows hash pid exact c table p)
    {table' : Bucket → List (Addr × TpNode)}
    (hsafe : Safe hash pid ⟨m',Function.update c.pc t p'⟩ table') {op : Op Task} {s : State}
    {res : Result} (hph : p.phase t = .called op) (hs : spec hash pid p.object op s res)
    (hmap : s.trackedMap = List.map Prod.snd ∘ table')
    (hcount : s.trackedCount =
      m'.trackedCount + Config.drift ⟨m',Function.update c.pc t p'⟩)
    (howes : Owes pid exact m' p' (.served res)) (hkept : m'.node = c.memory.node) :
    Continues hash pid exact p ⟨m',Function.update c.pc t p'⟩ table' := by
  refine ⟨_,Atomic.Runs.refl.serve t hph (served_of_spec hs),h.update hsafe hmap hcount howes ?_⟩
  rw [hkept]
  exact fun _ _ _ _ _ _ hn => hn

section Cases
variable {kmalloc : Option Addr} {task : Task}

theorem Follows.allocate (h : Follows hash pid exact c table p) {data : Word}
    (hp : c.pc t = .allocating task data)
    (hsafe : Safe hash pid ⟨m',Function.update c.pc t p'⟩ table)
    (ha : Concurrent.advance hash pid t kmalloc c.memory (.allocating task data) = some (m',p')) :
    Continues hash pid exact p ⟨m',Function.update c.pc t p'⟩ table := by
  have howes := h.owes t
  rw [hp] at howes
  cases kmalloc with
  | none =>
    cases ha
    exact h.serves hsafe howes (spec_add_failed data) h.map (h.count_outside hp id rfl rfl) rfl rfl
  | some tp =>
    simp only [Concurrent.advance] at ha
    split at ha <;> cases ha
    rename_i hfree
    refine h.silent hsafe (h.count_outside hp id rfl rfl) ⟨data,Function.update_self ..,howes⟩ ?_
    intro t' _ a n _ _ hn
    refine (Function.update_of_ne ?_ ..).trans hn
    rintro rfl
    simp [hfree] at hn

theorem Follows.link (h : Follows hash pid exact c table p) {tp : Addr}
    (hp : c.pc t = .linking task tp)
    (hsafe : Safe hash pid ⟨m',Function.update c.pc t p'⟩
      (tableAfter hash pid c.memory table (.linking task tp)))
    (ha : Concurrent.advance hash pid t kmalloc c.memory (.linking task tp) = some (m',p')) :
    Continues hash pid exact p ⟨m',Function.update c.pc t p'⟩
      (tableAfter hash pid c.memory table (.linking task tp)) := by
  have howes := h.owes t
  rw [hp] at howes
  obtain ⟨data,hn,hph⟩ := howes
  cases ha
  refine h.serves hsafe hph (spec_add data) ?_ ?_ rfl rfl
  · simp only [tableAfter,hn]
    rw [Function.comp_update,h.map]
    rfl
  · refine h.count_inside hsafe hp trivial trivial fun hcount => ?_
    simpa [drift] using hcount

/-- The end of the walk of a removal that finds no node. -/
theorem Follows.search (h : Follows hash pid exact c table p) {cur : Option Addr}
    (hp : c.pc t = .searching task cur)
    (hsafe : Safe hash pid ⟨m',Function.update c.pc t p'⟩ table)
    (ha : Concurrent.advance hash pid t kmalloc c.memory (.searching task cur) = some (m',p')) :
    Continues hash pid exact p ⟨m',Function.update c.pc t p'⟩ table := by
  have howes := h.owes t
  have hcur := h.safe.cursor t
  rw [hp] at howes hcur
  cases cur with
  | none =>
    cases ha
    have hnone := hcur.find?_eq_none
    rw [← h.trackedMap_eq] at hnone
    exact h.serves hsafe howes (spec_del_none hnone) h.map
      (h.count_inside hsafe hp trivial trivial id) rfl rfl
  | some cur =>
    obtain ⟨n,hn,-,-,-⟩ := h.safe.walk hcur
    simp only [Concurrent.advance,hn] at ha
    split at ha <;> cases ha <;>
      exact h.silent hsafe (h.count_inside hsafe hp trivial trivial id) howes
        fun _ _ _ _ _ _ hn => hn

theorem Follows.unlink (h : Follows hash pid exact c table p) {cur : Addr}
    (hp : c.pc t = .unlinking task cur)
    (hsafe : Safe hash pid ⟨m',Function.update c.pc t p'⟩
      (tableAfter hash pid c.memory table (.unlinking task cur)))
    (ha : Concurrent.advance hash pid t kmalloc c.memory (.unlinking task cur) = some (m',p')) :
    Continues hash pid exact p ⟨m',Function.update c.pc t p'⟩
      (tableAfter hash pid c.memory table (.unlinking task cur)) := by
  have howes := h.owes t
  have hcur := h.safe.cursor t
  rw [hp] at howes hcur
  obtain ⟨n,hfound⟩ := hcur
  cases ha
  have hsome := hfound.find?_eq
  rw [← h.trackedMap_eq] at hsome
  have hmem : (cur,n) ∈ table (hash (pid task)) := by
    obtain ⟨pre,post,hchain,-⟩ := hfound
    simp [hchain]
  refine h.serves hsafe howes (spec_del_some hsome) ?_ ?_ ⟨n,h.safe.stored _ _ hmem,rfl⟩ rfl
  · simp only [tableAfter]
    rw [Function.comp_update,h.map]
    simp only [Function.comp_apply,List.eraseP_map]
    rfl
  · refine h.count_inside hsafe hp trivial trivial fun hcount => ?_
    simp [hcount,drift]

/-- The node goes: it is the context's own, on no chain, and nobody is about to read it. -/
theorem Follows.free (h : Follows hash pid exact c table p) {cur : Addr} {data : Word}
    (hp : c.pc t = .freeing cur data)
    (hclean : exact = true → ∀ t', c.pc t' ≠ .reading cur)
    (hsafe : Safe hash pid ⟨m',Function.update c.pc t p'⟩ table)
    (ha : Concurrent.advance hash pid t kmalloc c.memory (.freeing cur data) = some (m',p')) :
    Continues hash pid exact p ⟨m',Function.update c.pc t p'⟩ table := by
  have howes := h.owes t
  rw [hp] at howes
  have hown : owned (c.pc t) = some cur := by rw [hp]; rfl
  obtain ⟨⟨n,hn⟩,houtside⟩ := h.safe.own t cur hown
  simp only [Concurrent.advance,hn] at ha
  cases ha
  refine h.silent hsafe (h.count_outside hp id rfl rfl) howes ?_
  intro t' ht' a n' hex ha hn'
  refine (Function.update_of_ne ?_ ..).trans hn'
  rintro rfl
  have hsole : owned (c.pc t') ≠ some a := fun ho => ht' (h.safe.sole t' t a ho hown)
  have hread : c.pc t' ≠ .reading a := hex.elim (fun he => hclean he t') (fun he => he a)
  have hc := h.safe.cursor t'
  cases hp' : c.pc t' <;> rw [hp'] at ha hsole hread hc <;>
    simp only [pointer,reduceCtorEq,Option.some.injEq] at ha
  case queryUnlocking k cur =>
    subst ha
    obtain ⟨b,n'',hmem⟩ := hc
    exact houtside b _ hmem rfl
  case reading cur => exact hread (by rw [ha])
  all_goals
    subst ha
    exact hsole rfl

/-- The trylock of a query. -/
theorem Follows.trylock (h : Follows hash pid exact c table p) {k : Query}
    (hp : c.pc t = .queryLocking k task)
    (hsafe : Safe hash pid ⟨m',Function.update c.pc t p'⟩ table)
    (ha : Concurrent.advance hash pid t kmalloc c.memory (.queryLocking k task) = some (m',p')) :
    Continues hash pid exact p ⟨m',Function.update c.pc t p'⟩ table := by
  have howes := h.owes t
  rw [hp] at howes
  simp only [Concurrent.advance] at ha
  split at ha <;> cases ha
  · rename_i hfree
    exact h.silent hsafe (h.count_enter hsafe hfree trivial rfl rfl) howes fun _ _ _ _ _ _ hn => hn
  · exact h.serves hsafe howes (spec_query_missed k) h.map (h.count_outside hp id rfl rfl) rfl rfl

/-- The walk of a query. One for the datum is served at its end only if its read is to come from
the node as it is now. -/
theorem Follows.query (h : Follows hash pid exact c table p) {k : Query} {cur : Option Addr}
    (hp : c.pc t = .querying k task cur)
    (hsafe : Safe hash pid ⟨m',Function.update c.pc t p'⟩ table)
    (ha : Concurrent.advance hash pid t kmalloc c.memory (.querying k task cur) = some (m',p')) :
    Continues hash pid exact p ⟨m',Function.update c.pc t p'⟩ table := by
  have howes := h.owes t
  have hcur := h.safe.cursor t
  rw [hp] at howes hcur
  have hspec : spec hash pid p.object (k.op task) p.object _ := spec_query k
  rw [h.trackedMap_eq] at hspec
  cases cur with
  | none =>
    cases ha
    rw [hcur.find?_eq_none] at hspec
    exact h.serves hsafe howes hspec h.map (h.count_inside hsafe hp trivial trivial id) rfl rfl
  | some cur =>
    obtain ⟨n,hn,-,hfound,-⟩ := h.safe.walk hcur
    simp only [Concurrent.advance,hn] at ha
    split at ha <;> cases ha <;> have hcount := h.count_inside hsafe hp trivial trivial id
    · rw [(hfound ‹_›).find?_eq] at hspec
      cases k with
      | exist => exact h.serves hsafe howes hspec h.map hcount rfl rfl
      | data =>
        cases exact with
        | true => exact h.serves hsafe howes hspec h.map hcount ⟨n,hn,rfl⟩ rfl
        | false => exact h.silent hsafe hcount ⟨task,howes⟩ fun _ _ _ _ _ _ hn => hn
    · exact h.silent hsafe hcount howes fun _ _ _ _ _ _ hn => hn

/-- The read of a query for the datum, where it is served if that was left open. -/
theorem Follows.read (h : Follows hash pid exact c table p) {cur : Addr}
    (hp : c.pc t = .reading cur)
    (hsafe : Safe hash pid ⟨m',Function.update c.pc t p'⟩ table)
    (ha : Concurrent.advance hash pid t kmalloc c.memory (.reading cur) = some (m',p')) :
    Continues hash pid exact p ⟨m',Function.update c.pc t p'⟩ table := by
  have howes := h.owes t
  rw [hp] at howes
  cases exact with
  | true =>
    obtain ⟨n,hn,hph⟩ := howes
    simp only [Concurrent.advance,hn] at ha
    cases ha
    exact h.silent hsafe (h.count_outside hp id rfl rfl) hph fun _ _ _ _ _ _ hn => hn
  | false =>
    obtain ⟨task,hph⟩ := howes
    simp only [Concurrent.advance] at ha
    split at ha <;> cases ha
    · exact h.silent hsafe (h.count_outside hp id rfl rfl) rfl fun _ _ _ _ _ _ hn => hn
    · rename_i n hn
      have hserve : served hash pid false p.object (.queryData task) p.object
        (.pointer n.data) := .inr ⟨rfl,task,n.data,rfl,rfl⟩
      exact ⟨_,Atomic.Runs.refl.serve t hph hserve,
        h.update hsafe h.map (h.count_outside hp id rfl rfl) rfl fun _ _ _ _ _ _ hn => hn⟩

end Cases

/-- The atomic tracker follows every step that does not pull a node away from a reader. -/
theorem Follows.advance (h : Follows hash pid exact c table p) {kmalloc : Option Addr}
    (hclean : exact = true → ∀ cur data, c.pc t = .freeing cur data →
      ∀ t', c.pc t' ≠ .reading cur)
    (ha : Concurrent.advance hash pid t kmalloc c.memory (c.pc t) = some (m',p')) :
    Continues hash pid exact p ⟨m',Function.update c.pc t p'⟩
      (tableAfter hash pid c.memory table (c.pc t)) := by
  have hsafe := h.safe.advance ha
  have howes := h.owes t
  have hkept : ∀ t', t' ≠ t → ∀ a n, (exact = true ∨ ∀ cur, c.pc t' ≠ .reading cur) →
      pointer (c.pc t') = some a → c.memory.node a = some n → c.memory.node a = some n :=
    fun _ _ _ _ _ _ hn => hn
  cases hp : c.pc t <;> rw [hp] at ha hsafe howes
  case idle | returning | fault => cases ha
  case allocating task data => exact h.allocate hp hsafe ha
  case addLocking task tp =>
    simp only [Concurrent.advance] at ha
    split at ha <;> cases ha
    exact h.silent hsafe (h.count_enter hsafe ‹_› trivial rfl rfl) howes hkept
  case linking task tp => exact h.link hp hsafe ha
  case counting =>
    cases ha
    refine h.silent hsafe (h.count_inside hsafe hp trivial trivial fun hcount => ?_) howes hkept
    simpa [drift] using hcount
  case addUnlocking =>
    cases ha
    exact h.silent hsafe (h.count_own hp trivial) howes hkept
  case delLocking task =>
    simp only [Concurrent.advance] at ha
    split at ha <;> cases ha
    exact h.silent hsafe (h.count_enter hsafe ‹_› trivial rfl rfl) howes hkept
  case searching task cur => exact h.search hp hsafe ha
  case discounting task cur =>
    cases ha
    refine h.silent hsafe (h.count_inside hsafe hp trivial trivial fun hcount => ?_) howes hkept
    simpa [drift] using hcount
  case unlinking task cur => exact h.unlink hp hsafe ha
  case delUnlocking cur =>
    cases cur <;> cases ha <;> exact h.silent hsafe (h.count_own hp trivial) howes hkept
  case taking cur =>
    obtain ⟨n,hn,hph⟩ := howes
    simp only [Concurrent.advance,hn] at ha
    cases ha
    exact h.silent hsafe (h.count_outside hp id rfl rfl) hph hkept
  case freeing cur data => exact h.free hp (fun he => hclean he cur data hp) hsafe ha
  case queryLocking k task => exact h.trylock hp hsafe ha
  case querying k task cur => exact h.query hp hsafe ha
  case queryUnlocking k cur =>
    cases k <;> cases cur <;> cases ha <;>
      exact h.silent hsafe (h.count_own hp trivial) howes hkept
  case reading cur => exact h.read hp hsafe ha

theorem Follows.next (h : Follows hash pid exact c table p) {a : Action T Task Addr}
    (ha : exact = true → Clean c a) :
    ∃ q, Atomic.Runs (served hash pid exact) p (step hash pid c a).2.toList q ∧
      Follows hash pid exact (next hash pid c a) (tableNext hash pid c table a) q := by
  have hsafe := h.safe.next hash pid a
  cases a with
  | call t op =>
    cases hp : c.pc t
    case idle =>
      have howes := h.owes t
      have hdrift := h.safe.drift_outside c.memory (enter op)
        (by rw [hp]; exact id) rfl
      simp only [Concurrent.next,step,hp,tableNext] at hsafe ⊢
      rw [hp] at howes
      refine ⟨_,Atomic.Runs.refl.call t op howes,h.update hsafe h.map ?_ ?_ fun _ _ _ _ _ _ hn => hn⟩
      · rw [hdrift]
        exact h.count
      · cases op <;> rfl
    all_goals
      simp only [Concurrent.next,step,hp,tableNext] at hsafe ⊢
      exact ⟨p,.refl,h⟩
  | step t kmalloc =>
    simp only [Concurrent.next,step,tableNext] at hsafe ⊢
    cases hadv : Concurrent.advance hash pid t kmalloc c.memory (c.pc t) with
    | none => exact ⟨p,.refl,h⟩
    | some r =>
      refine h.advance ?_ hadv
      intro he cur data hp
      exact ha he cur (by rw [hp]; rfl)
  | ret t =>
    cases hp : c.pc t
    case returning res =>
      have howes := h.owes t
      have hdrift := h.safe.drift_outside c.memory .idle
        (by rw [hp]; exact id) rfl
      simp only [Concurrent.next,step,hp,tableNext] at hsafe ⊢
      rw [hp] at howes
      refine ⟨_,Atomic.Runs.refl.ret t howes,h.update hsafe h.map ?_ rfl fun _ _ _ _ _ _ hn => hn⟩
      rw [hdrift]
      exact h.count
    all_goals
      simp only [Concurrent.next,step,hp,tableNext] at hsafe ⊢
      exact ⟨p,.refl,h⟩

end Steps

/-- The atomic tracker behind a run. -/
theorem exists_follows (exact : Bool) (as : List (Action T Task Addr))
    (hclean : exact = true → Admits (next hash pid) Clean initial as) :
    ∃ q, Atomic.Runs (served hash pid exact) (Atomic.initial Hash.trackerInit)
        (Atomic.history (step hash pid) initial as) q ∧
      ∃ table, Follows hash pid exact (as.foldl (next hash pid) initial) table q := by
  have hadm : Admits (next hash pid) (fun c a => exact = true → Clean c a) initial as := by
    cases exact with
    | true => simpa using hclean rfl
    | false => exact admits_of_forall (by simp)
  refine Atomic.exists_runs_of_simulation (step hash pid)
    (R := fun c q => ∃ table, Follows hash pid exact c table q) ?_
    ⟨_,follows_initial hash pid exact⟩ hadm
  rintro c q a ⟨table,h⟩ ha
  obtain ⟨r,hr,hf⟩ := h.next ha
  exact ⟨r,hr,_,hf⟩

/-- How often an operation hands the datum in. -/
def attached (a : Word) : Op Task → ℕ
  | .add _ data => Occurrences.hit data a
  | _ => 0

/-- How often a call hands the datum back for good. -/
def detached (a : Word) : Op Task × Result → ℕ
  | (.del _,.pointer data) => Occurrences.hit data a
  | _ => 0

variable {hash pid} in
lemma detached_add_held_step {exact : Bool} {s s' : State} {op : Op Task} {res : Result}
    (hs : served hash pid exact s op s' res) {a : Word} (ha : a ≠ NULL) :
    detached a (op,res) + held s' a ≤ attached a op + held s a := by
  have hserve : spec hash pid s op s' res ∨ s' = s ∧ ∃ task data,
      op = .queryData task ∧ res = .pointer data := by
    cases exact with
    | true => exact .inl hs
    | false => exact hs
  rcases hserve with ⟨ctx,hctx⟩ | ⟨rfl,task,data,rfl,rfl⟩
  · obtain ⟨rfl,rfl⟩ := Prod.ext_iff.mp hctx
    cases op with
    | add task data =>
      have hadd := held_trackerAdd hash pid ctx s task data ha
      change 0 + held (trackerAdd hash pid ctx s task data).1 a ≤ Occurrences.hit data a + held s a
      split at hadd <;> omega
    | del task =>
      have hdel := held_trackerDel hash pid s task ha
      rw [← trackerDel_snd] at hdel
      change Occurrences.hit (trackerDel hash pid s task).2 a +
        held (trackerDel hash pid s task).1 a ≤ 0 + held s a
      omega
    | query task | queryData task => exact le_refl _
  · exact le_refl _

variable {hash pid} in
omit [DecidableEq T] in
/-- A sequential run makes up no datum. -/
lemma detached_add_held_le {exact : Bool} {log : List (T × Op Task × Result)} {s : State}
    (h : Atomic.Legal (served hash pid exact) Hash.trackerInit log s) {a : Word} (ha : a ≠ NULL) :
    (log.map fun e => detached a e.2).sum + held s a ≤ (log.map fun e => attached a e.2.1).sum := by
  induction h with
  | nil => simp [held_trackerInit]
  | snoc t _ hs ih =>
    have hstep := detached_add_held_step hs ha
    simp only [List.map_append,List.map_cons,List.map_nil,List.sum_append,List.sum_singleton]
    omega

/-- No datum is handed out twice. Whatever the interleaving, the calls of `tracker_del` that have
returned gave a pointer out at most as often as calls of `tracker_add` brought it in, so that two
exits never detach the same data. -/
theorem detached_le_attached [Fintype T] (as : List (Action T Task Addr)) {a : Word}
    (ha : a ≠ NULL) :
    let h := Atomic.history (step hash pid) initial as
    ∑ t, (((Atomic.calls t h).zip (Atomic.results t h)).map (detached a)).sum ≤
      ∑ t, ((Atomic.calls t h).map (attached a)).sum := by
  intro h
  obtain ⟨p,hp,-⟩ := exists_follows hash pid false as (by simp)
  obtain ⟨log,-,hlegal,hacc⟩ := hp.exists_explains
  calc ∑ t, (((Atomic.calls t h).zip (Atomic.results t h)).map (detached a)).sum
      ≤ ∑ t, ((Atomic.own t log).map (detached a)).sum :=
        Finset.sum_le_sum fun t _ =>
          List.Sublist.sum_le_sum ((hacc t).zip_returned.sublist.map _) fun _ _ => Nat.zero_le _
    _ = (log.map fun e => detached a e.2).sum := Atomic.sum_own _ log
    _ ≤ (log.map fun e => attached a e.2.1).sum :=
        (Nat.le_add_right ..).trans (detached_add_held_le hlegal ha)
    _ = ∑ t, ((Atomic.own t log).map fun e => attached a e.1).sum :=
        (Atomic.sum_own (fun e : Op Task × Result => attached a e.1) log).symm
    _ ≤ ∑ t, ((Atomic.calls t h).map (attached a)).sum := by
        refine Finset.sum_le_sum fun t _ => ?_
        have hsub := (hacc t).own_called.sublist.map (attached a)
        rw [List.map_map] at hsub
        exact List.Sublist.sum_le_sum hsub fun _ _ => Nat.zero_le _

/-- Two removals of one task at the same time. -/
theorem detached_le_attached_raced :
    let as : List (Action (Fin 2) (Fin 2) (Fin 2)) :=
      [.call 0 (.add 0 16),.step 0 (some 0),.step 0 none,.step 0 none,.step 0 none,.step 0 none,
        .ret 0,.call 0 (.del 0),.call 1 (.del 0),.step 0 none,.step 1 none,.step 0 none,
        .step 0 none,.step 0 none,.step 0 none,.step 1 none,.step 0 none,.step 0 none,.ret 0]
    let h := Atomic.history (step (fun _ => 0) (fun t : Fin 2 => t.val)) initial as
    ∑ t, (((Atomic.calls t h).zip (Atomic.results t h)).map (detached 16)).sum ≤
      ∑ t, ((Atomic.calls t h).map (attached 16)).sum :=
  detached_le_attached (fun _ => 0) (fun t : Fin 2 => t.val) _ (by decide)

end PmuMin.Hash.Concurrent
