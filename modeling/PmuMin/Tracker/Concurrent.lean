import PmuMin.Tracker.Hash
import PmuMin.Library.Atomic
import PmuMin.Library.Hlist
import Mathlib.Data.List.Forall2

/-! `ptracker_hash.c` on many CPUs: the threads, interrupt and NMI contexts run the four functions
in steps that interleave in any order, over nodes in the kernel's heap. -/
namespace PmuMin.Hash.Concurrent
open Machine

variable {T Task Addr : Type}

/-- The static variables and the heap: `lock` is the context that holds the spinlock, `node` the
contents of the allocated nodes. -/
structure Memory (T Addr : Type) where
  lock : Option T
  links : Hlist.Links Bucket Addr
  node : Addr → Option TpNode
  trackedCount : BitVec 32

def trackerInit : Memory T Addr := ⟨none,Hlist.empty,fun _ => none,0⟩

/-- The two queries, alike up to what they return. -/
inductive Query
  | exist
  | data
  deriving DecidableEq, Repr

def Query.op (k : Query) (task : Task) : Op Task :=
  match k with
  | .exist => .query task
  | .data => .queryData task

/-- What a query returns that finds the lock taken: `NULL` as a `bool` and as a pointer. -/
def Query.missed : Query → Result
  | .exist => .flag false
  | .data => .pointer NULL

/-- Program points, each before the step its name says. A `fault` is an access to a node that
was freed: during a walk, in `tracker_del` or in the last read of `query_data_tracker`. -/
inductive Site
  | walking
  | deleting
  | reading
  deriving DecidableEq, Repr

inductive Pc (Task Addr : Type)
  | idle
  | allocating (task : Task) (data : Word)
  | addLocking (task : Task) (tp : Addr)
  | linking (task : Task) (tp : Addr)
  | counting
  | addUnlocking
  | delLocking (task : Task)
  | searching (task : Task) (cur : Option Addr)
  | discounting (task : Task) (cur : Addr)
  | unlinking (task : Task) (cur : Addr)
  | delUnlocking (cur : Option Addr)
  | taking (cur : Addr)
  | freeing (cur : Addr) (data : Word)
  | queryLocking (k : Query) (task : Task)
  | querying (k : Query) (task : Task) (cur : Option Addr)
  | queryUnlocking (k : Query) (cur : Option Addr)
  | reading (cur : Addr)
  | returning (res : Result)
  | fault (site : Site)
  deriving DecidableEq

/-- The first step of each function. -/
def enter : Op Task → Pc Task Addr
  | .add task data => .allocating task data
  | .del task => .delLocking task
  | .query task => .queryLocking .exist task
  | .queryData task => .queryLocking .data task

variable [DecidableEq Addr] (hash : Pid → Bucket) (pid : Task → Pid)

/-- One step of a context, if it is not waiting for the lock. `kmalloc` gives a free address or
fails; the node it gives is filled before anyone else can see it. -/
def advance (t : T) (kmalloc : Option Addr) (m : Memory T Addr) :
    Pc Task Addr → Option (Memory T Addr × Pc Task Addr)
  | .idle | .returning _ | .fault _ => none
  | .allocating task data =>
    match kmalloc with
    | none => some (m,.returning (.code (-ENOMEM)))
    | some tp =>
      if m.node tp = none then
        some ({ m with node := Function.update m.node tp (some ⟨pid task,data⟩) },
          .addLocking task tp)
      else none
  | .addLocking task tp =>
    match m.lock with
    | none => some ({ m with lock := some t },.linking task tp)
    | some _ => none
  | .linking task tp =>
    some ({ m with links := Hlist.addHead m.links tp (hash (pid task)) },.counting)
  | .counting => some ({ m with trackedCount := m.trackedCount + 1 },.addUnlocking)
  | .addUnlocking => some ({ m with lock := none },.returning (.code 0))
  | .delLocking task =>
    match m.lock with
    | none => some ({ m with lock := some t },
        .searching task (m.links.target (.inl (hash (pid task)))))
    | some _ => none
  | .searching _ none => some (m,.delUnlocking none)
  | .searching task (some cur) =>
    match m.node cur with
    | none => some (m,.fault .walking)
    | some n =>
      if n.id = pid task then some (m,.discounting task cur)
      else some (m,.searching task (m.links.target (.inr cur)))
  | .discounting task cur =>
    some ({ m with trackedCount := m.trackedCount - 1 },.unlinking task cur)
  | .unlinking _ cur =>
    some ({ m with links := Hlist.delInit m.links cur },.delUnlocking (some cur))
  | .delUnlocking none => some ({ m with lock := none },.returning (.pointer NULL))
  | .delUnlocking (some cur) => some ({ m with lock := none },.taking cur)
  | .taking cur =>
    match m.node cur with
    | none => some (m,.fault .deleting)
    | some n => some (m,.freeing cur n.data)
  | .freeing cur data =>
    match m.node cur with
    | none => some (m,.fault .deleting)
    | some _ =>
      some ({ m with node := Function.update m.node cur none },.returning (.pointer data))
  | .queryLocking k task =>
    match m.lock with
    | none => some ({ m with lock := some t },
        .querying k task (m.links.target (.inl (hash (pid task)))))
    | some _ => some (m,.returning k.missed)
  | .querying k _ none => some (m,.queryUnlocking k none)
  | .querying k task (some cur) =>
    match m.node cur with
    | none => some (m,.fault .walking)
    | some n =>
      if n.id = pid task then some (m,.queryUnlocking k (some cur))
      else some (m,.querying k task (m.links.target (.inr cur)))
  | .queryUnlocking .exist cur =>
    some ({ m with lock := none },.returning (.flag cur.isSome))
  | .queryUnlocking .data none => some ({ m with lock := none },.returning (.pointer NULL))
  | .queryUnlocking .data (some cur) => some ({ m with lock := none },.reading cur)
  | .reading cur =>
    match m.node cur with
    | none => some (m,.fault .reading)
    | some n => some (m,.returning (.pointer n.data))

structure Config (T Task Addr : Type) where
  memory : Memory T Addr
  pc : T → Pc Task Addr

def initial : Config T Task Addr := ⟨trackerInit,fun _ => .idle⟩

/-- What the scheduler and the callers do: a call of an idle context, a step of a context with
what `kmalloc` gives if the step calls it, a return. -/
inductive Action (T Task Addr : Type)
  | call (t : T) (op : Op Task)
  | step (t : T) (kmalloc : Option Addr)
  | ret (t : T)

variable [DecidableEq T]

/-- An action that is not possible, as a step of a context that waits for the lock, changes
nothing. -/
def step (c : Config T Task Addr) :
    Action T Task Addr → Config T Task Addr × Option (Atomic.Event T (Op Task) Result)
  | .call t op =>
    match c.pc t with
    | .idle => ({ c with pc := Function.update c.pc t (enter op) },some (.call t op))
    | _ => (c,none)
  | .step t kmalloc =>
    match advance hash pid t kmalloc c.memory (c.pc t) with
    | some (m,pc) => (⟨m,Function.update c.pc t pc⟩,none)
    | none => (c,none)
  | .ret t =>
    match c.pc t with
    | .returning res => ({ c with pc := Function.update c.pc t .idle },some (.ret t res))
    | _ => (c,none)

def next (c : Config T Task Addr) (a : Action T Task Addr) : Config T Task Addr :=
  (step hash pid c a).1

/-- The context is between `spin_lock` and `spin_unlock`. -/
def Inside : Pc Task Addr → Prop
  | .linking .. | .counting | .addUnlocking | .searching .. | .discounting .. | .unlinking ..
  | .delUnlocking _ | .querying .. | .queryUnlocking .. => True
  | _ => False

/-- The node that the context alone has a pointer to. -/
def owned : Pc Task Addr → Option Addr
  | .addLocking _ tp | .linking _ tp => some tp
  | .delUnlocking cur => cur
  | .taking cur | .freeing cur _ => some cur
  | _ => none

/-- A walk for a pid stands at `cur`, and no node before it has the pid. -/
def Walk (id : Pid) (chain : List (Addr × TpNode)) (cur : Option Addr) : Prop :=
  ∃ pre post, chain = pre ++ post ∧ cur = post.head?.map Prod.fst ∧ ∀ e ∈ pre, e.2.id ≠ id

/-- The first node of a chain that has the pid. -/
def Found (id : Pid) (chain : List (Addr × TpNode)) (cur : Addr) (n : TpNode) : Prop :=
  ∃ pre post, chain = pre ++ (cur,n) :: post ∧ n.id = id ∧ ∀ e ∈ pre, e.2.id ≠ id

/-- What a context knows of the nodes it has pointers to. -/
def Cursor (m : Memory T Addr) (table : Bucket → List (Addr × TpNode)) : Pc Task Addr → Prop
  | .addLocking task tp | .linking task tp => ∃ data, m.node tp = some ⟨pid task,data⟩
  | .searching task cur | .querying _ task cur => Walk (pid task) (table (hash (pid task))) cur
  | .discounting task cur | .unlinking task cur =>
    ∃ n, Found (pid task) (table (hash (pid task))) cur n
  | .queryUnlocking _ (some cur) => ∃ b n, (cur,n) ∈ table b
  | .fault site => site = .reading
  | _ => True

/-- The chains after a step at a program point. -/
def tableAfter (m : Memory T Addr) (table : Bucket → List (Addr × TpNode)) :
    Pc Task Addr → Bucket → List (Addr × TpNode)
  | .linking task tp =>
    match m.node tp with
    | some n => Function.update table (hash (pid task)) ((tp,n) :: table (hash (pid task)))
    | none => table
  | .unlinking task _ =>
    Function.update table (hash (pid task))
      ((table (hash (pid task))).eraseP (fun e => e.2.id = pid task))
  | _ => table

omit [DecidableEq Addr] in
lemma Found.eraseP_eq {id : Pid} {pre post : List (Addr × TpNode)} {cur : Addr} {n : TpNode}
    (hid : n.id = id) (hpre : ∀ e ∈ pre, e.2.id ≠ id) :
    (pre ++ (cur,n) :: post).eraseP (fun e => e.2.id = id) = pre ++ post := by
  rw [List.eraseP_append_right _ (by simpa using hpre)]
  simp [hid]

/-- The invariant: the links hold the chains of `table`, whose nodes are allocated with the
contents it gives, one context at most is in a critical section, a node that a context owns is
allocated, on no chain and owned by no other, and there are no further allocated nodes. -/
structure Safe (c : Config T Task Addr) (table : Bucket → List (Addr × TpNode)) : Prop where
  links : Hlist.Represents c.memory.links (List.map Prod.fst ∘ table)
  stored : ∀ b, ∀ e ∈ table b, c.memory.node e.1 = some e.2
  holder : ∀ t, Inside (c.pc t) ↔ c.memory.lock = some t
  own : ∀ t a, owned (c.pc t) = some a →
    (∃ n, c.memory.node a = some n) ∧ ∀ b, ∀ e ∈ table b, e.1 ≠ a
  sole : ∀ t t' a, owned (c.pc t) = some a → owned (c.pc t') = some a → t = t'
  reached : ∀ a n, c.memory.node a = some n →
    (∃ b, ∃ e ∈ table b, e.1 = a) ∨ ∃ t, owned (c.pc t) = some a
  cursor : ∀ t, Cursor hash pid c.memory table (c.pc t)

omit [DecidableEq Addr] [DecidableEq T] in
theorem safe_initial : Safe hash pid (initial : Config T Task Addr) fun _ => [] where
  links := Hlist.represents_empty
  stored _ _ h := by simp at h
  holder t := by simp [initial,trackerInit,Inside]
  own t a h := by simp [initial,owned] at h
  sole t t' a h := by simp [initial,owned] at h
  reached a n h := by simp [initial,trackerInit] at h
  cursor t := trivial

section Walk
variable {hash pid} {c : Config T Task Addr} {table : Bucket → List (Addr × TpNode)}

omit [DecidableEq Addr] [DecidableEq T] in
lemma Safe.first (h : Safe hash pid c table) (b : Bucket) (id : Pid) :
    Walk id (table b) (c.memory.links.target (.inl b)) := by
  refine ⟨[],table b,rfl,?_,by simp⟩
  rw [(h.links.path b).target_eq]
  simp

omit [DecidableEq Addr] [DecidableEq T] in
lemma Safe.walk (h : Safe hash pid c table) {b : Bucket} {id : Pid} {cur : Addr}
    (hw : Walk id (table b) (some cur)) :
    ∃ n, c.memory.node cur = some n ∧ (cur,n) ∈ table b ∧
      (n.id = id → Found id (table b) cur n) ∧
      (n.id ≠ id → Walk id (table b) (c.memory.links.target (.inr cur))) := by
  obtain ⟨pre,post,hchain,hcur,hpre⟩ := hw
  cases post with
  | nil => simp at hcur
  | cons e post =>
    obtain ⟨cur',n⟩ := e
    obtain rfl : cur = cur' := by simpa using hcur
    have hmem : (cur,n) ∈ table b := by simp [hchain]
    refine ⟨n,h.stored b _ hmem,hmem,fun hid => ⟨pre,post,hchain,hid,hpre⟩,fun hid => ?_⟩
    refine ⟨pre ++ [(cur,n)],post,by simp [hchain],?_,?_⟩
    · have hpath := h.links.path b
      have hmap : (List.map Prod.fst ∘ table) b =
          pre.map Prod.fst ++ cur :: post.map Prod.fst := by simp [hchain]
      rw [hmap] at hpath
      rw [hpath.next,List.head?_map]
    · intro e he
      rcases List.mem_append.mp he with he | he
      · exact hpre e he
      · obtain rfl := List.mem_singleton.mp he
        exact hid

end Walk

section Steps
variable {hash pid} {c : Config T Task Addr} {table : Bucket → List (Addr × TpNode)} {t : T}
  {m' : Memory T Addr} {p' : Pc Task Addr}

omit [DecidableEq Addr] in
/-- A step of one context, as far as the others notice it. -/
theorem Safe.update (h : Safe hash pid c table) {table' : Bucket → List (Addr × TpNode)}
    (hlinks : Hlist.Represents m'.links (List.map Prod.fst ∘ table'))
    (hstored : ∀ b, ∀ e ∈ table' b, m'.node e.1 = some e.2)
    (hholder : Inside p' ↔ m'.lock = some t)
    (hlock : ∀ t', t' ≠ t → (m'.lock = some t' ↔ c.memory.lock = some t'))
    (htable : table' = table ∨ c.memory.lock = some t)
    (hown : ∀ a, owned p' = some a →
      (∃ n, m'.node a = some n) ∧ (∀ b, ∀ e ∈ table' b, e.1 ≠ a) ∧
        ∀ t', t' ≠ t → owned (c.pc t') ≠ some a)
    (hkept : ∀ t', t' ≠ t → ∀ a, owned (c.pc t') = some a →
      m'.node a = c.memory.node a ∧ ∀ b, ∀ e ∈ table' b, e.1 ≠ a)
    (hreached : ∀ a n, m'.node a = some n → (∃ b, ∃ e ∈ table' b, e.1 = a) ∨
      owned p' = some a ∨ ∃ t', t' ≠ t ∧ owned (c.pc t') = some a)
    (hcursor : Cursor hash pid m' table' p') :
    Safe hash pid ⟨m',Function.update c.pc t p'⟩ table' where
  links := hlinks
  stored := hstored
  holder t' := by
    by_cases he : t' = t
    · subst he
      simpa only [Function.update_self] using hholder
    · simp only [Function.update_of_ne he]
      exact (h.holder t').trans (hlock t' he).symm
  own t' a ha := by
    by_cases he : t' = t
    · subst he
      simp only [Function.update_self] at ha
      exact ⟨(hown a ha).1,(hown a ha).2.1⟩
    · simp only [Function.update_of_ne he] at ha
      obtain ⟨hn,ht⟩ := hkept t' he a ha
      exact ⟨hn ▸ (h.own t' a ha).1,ht⟩
  sole t1 t2 a h1 h2 := by
    by_cases e1 : t1 = t <;> by_cases e2 : t2 = t
    · rw [e1,e2]
    · subst e1
      simp only [Function.update_self] at h1
      simp only [Function.update_of_ne e2] at h2
      exact absurd h2 ((hown a h1).2.2 t2 e2)
    · subst e2
      simp only [Function.update_self] at h2
      simp only [Function.update_of_ne e1] at h1
      exact absurd h1 ((hown a h2).2.2 t1 e1)
    · simp only [Function.update_of_ne e1,Function.update_of_ne e2] at h1 h2
      exact h.sole t1 t2 a h1 h2
  reached a n hn := by
    rcases hreached a n hn with ht | ha | ⟨t',ht',ha⟩
    · exact .inl ht
    · exact .inr ⟨t,by simpa only [Function.update_self] using ha⟩
    · exact .inr ⟨t',by simpa only [Function.update_of_ne ht'] using ha⟩
  cursor t' := by
    by_cases he : t' = t
    · subst he
      simpa only [Function.update_self] using hcursor
    · simp only [Function.update_of_ne he]
      have hc := h.cursor t'
      -- a context inside excludes the others, and one outside looks at its own node at most
      have hsame : Inside (c.pc t') → table' = table := by
        intro hi
        refine htable.resolve_right fun hl => he ?_
        exact Option.some.inj (((h.holder t').mp hi).symm.trans hl)
      cases hp : c.pc t' <;> rw [hp] at hc hsame
      case addLocking task tp | linking task tp =>
        obtain ⟨data,hdata⟩ := hc
        exact ⟨data,(hkept t' he tp (by rw [hp]; rfl)).1.trans hdata⟩
      case queryUnlocking k cur => cases cur <;> rw [hsame trivial] <;> exact hc
      case searching | querying | discounting | unlinking => rw [hsame trivial]; exact hc
      all_goals exact hc

omit [DecidableEq Addr] in
lemma Safe.reached_cases (h : Safe hash pid c table) (t : T) {a : Addr} {n : TpNode}
    (hn : c.memory.node a = some n) :
    (∃ b, ∃ e ∈ table b, e.1 = a) ∨ owned (c.pc t) = some a ∨
      ∃ t', t' ≠ t ∧ owned (c.pc t') = some a := by
  rcases h.reached a n hn with ht | ⟨t',ha⟩
  · exact .inl ht
  · by_cases he : t' = t
    · exact .inr (.inl (he ▸ ha))
    · exact .inr (.inr ⟨t',he,ha⟩)

omit [DecidableEq Addr] in
/-- A step that leaves the table, the nodes and the lock as they are. -/
theorem Safe.move (h : Safe hash pid c table) (hlinks : m'.links = c.memory.links)
    (hnode : m'.node = c.memory.node) (hlock : m'.lock = c.memory.lock)
    (hinside : Inside p' ↔ Inside (c.pc t))
    (hown : owned p' = owned (c.pc t)) (hcursor : Cursor hash pid m' table p') :
    Safe hash pid ⟨m',Function.update c.pc t p'⟩ table := by
  refine h.update (hlinks ▸ h.links) (hnode ▸ h.stored) ?_ (fun t' _ => by rw [hlock]) (.inl rfl)
    ?_ ?_ ?_ hcursor
  · rw [hlock,hinside]
    exact h.holder t
  · intro a ha
    rw [hown] at ha
    have hold := h.own t a ha
    exact ⟨hnode ▸ hold.1,hold.2,fun t' ht' h' => ht' (h.sole t' t a h' ha)⟩
  · intro t' _ a ha
    exact ⟨by rw [hnode],(h.own t' a ha).2⟩
  · intro a n hn
    rw [hown]
    exact h.reached_cases t (hnode ▸ hn)

omit [DecidableEq Addr] in
/-- `spin_lock` on a free lock, and a `spin_trylock` that succeeds. -/
theorem Safe.acquire (h : Safe hash pid c table) (hfree : c.memory.lock = none)
    (hinside : Inside p') (hown : owned p' = owned (c.pc t))
    (hcursor : Cursor hash pid c.memory table p') :
    Safe hash pid ⟨{ c.memory with lock := some t },Function.update c.pc t p'⟩ table := by
  refine h.update h.links h.stored ⟨fun _ => rfl,fun _ => hinside⟩ ?_ (.inl rfl) ?_ ?_ ?_ ?_
  · intro t' ht'
    simp [hfree,Ne.symm ht']
  · intro a ha
    rw [hown] at ha
    have hold := h.own t a ha
    exact ⟨hold.1,hold.2,fun t' ht' h' => ht' (h.sole t' t a h' ha)⟩
  · intro t' _ a ha
    exact ⟨rfl,(h.own t' a ha).2⟩
  · intro a n hn
    rw [hown]
    exact h.reached_cases t hn
  · cases p' <;> exact hcursor

omit [DecidableEq Addr] in
/-- `spin_unlock`. -/
theorem Safe.release (h : Safe hash pid c table) (hold : Inside (c.pc t)) (hout : ¬ Inside p')
    (hown : owned p' = owned (c.pc t)) (hcursor : Cursor hash pid c.memory table p') :
    Safe hash pid ⟨{ c.memory with lock := none },Function.update c.pc t p'⟩ table := by
  refine h.update h.links h.stored ?_ ?_ (.inl rfl) ?_ ?_ ?_ ?_
  · simpa using hout
  · intro t' ht'
    simp [(h.holder t).mp hold,Ne.symm ht']
  · intro a ha
    rw [hown] at ha
    have ht := h.own t a ha
    exact ⟨ht.1,ht.2,fun t' ht' h' => ht' (h.sole t' t a h' ha)⟩
  · intro t' _ a ha
    exact ⟨rfl,(h.own t' a ha).2⟩
  · intro a n hn
    rw [hown]
    exact h.reached_cases t hn
  · cases p' <;> exact hcursor

/-- `kmalloc` and the two writes to the new node. -/
theorem Safe.allocate (h : Safe hash pid c table) (hi : ¬ Inside (c.pc t))
    (hp : owned (c.pc t) = none) {tp : Addr} (hfree : c.memory.node tp = none) (task : Task) (data : Word) :
    Safe hash pid
      ⟨{ c.memory with node := Function.update c.memory.node tp (some ⟨pid task,data⟩) },
        Function.update c.pc t (.addLocking task tp)⟩ table := by
  have hne : ∀ a n, c.memory.node a = some n → a ≠ tp := by
    intro a n hn he
    simp [he,hfree] at hn
  refine h.update h.links ?_ ?_ (fun _ _ => Iff.rfl) (.inl rfl) ?_ ?_ ?_ ?_
  · intro b e he
    have hst := h.stored b e he
    exact (Function.update_of_ne (hne _ _ hst) ..).trans hst
  · exact ⟨False.elim,fun hl => hi ((h.holder t).mpr hl)⟩
  · intro a ha
    obtain rfl : tp = a := Option.some.inj ha
    refine ⟨⟨_,Function.update_self ..⟩,fun b e he => hne _ _ (h.stored b e he),?_⟩
    intro t' _ h'
    obtain ⟨n,hn⟩ := (h.own t' tp h').1
    exact hne _ _ hn rfl
  · intro t' _ a ha
    obtain ⟨⟨n,hn⟩,hout⟩ := h.own t' a ha
    exact ⟨Function.update_of_ne (hne _ _ hn) ..,hout⟩
  · intro a n hn
    by_cases ha : a = tp
    · exact .inr (.inl (congrArg some ha.symm))
    · simp only [Function.update_of_ne ha] at hn
      rcases h.reached_cases t hn with ht | ht | ht
      · exact .inl ht
      · simp [hp] at ht
      · exact .inr (.inr ht)
  · exact ⟨data,Function.update_self ..⟩

theorem Safe.link (h : Safe hash pid c table) {task : Task} {tp : Addr}
    (hp : c.pc t = .linking task tp) :
    Safe hash pid
      ⟨{ c.memory with links := Hlist.addHead c.memory.links tp (hash (pid task)) },
        Function.update c.pc t .counting⟩ (tableAfter hash pid c.memory table (c.pc t)) := by
  have hlock : c.memory.lock = some t := (h.holder t).mp (by rw [hp]; trivial)
  obtain ⟨⟨n,hn⟩,hout⟩ := h.own t tp (by rw [hp]; rfl)
  have htable : tableAfter hash pid c.memory table (c.pc t) =
      Function.update table (hash (pid task)) ((tp,n) :: table (hash (pid task))) := by
    simp [tableAfter,hp,hn]
  have hmem : ∀ b, ∀ e ∈ tableAfter hash pid c.memory table (c.pc t) b, e = (tp,n) ∨ e ∈ table b := by
    intro b e he
    rw [htable] at he
    by_cases hb : b = hash (pid task)
    · subst hb
      rwa [Function.update_self,List.mem_cons] at he
    · rw [Function.update_of_ne hb] at he
      exact .inr he
  refine h.update ?_ ?_ ?_ (fun _ _ => Iff.rfl) (.inr hlock) ?_ ?_ ?_ trivial
  · have hfresh : ∀ b, tp ∉ (List.map Prod.fst ∘ table) b := by
      intro b hb
      obtain ⟨e,he,hetp⟩ := List.mem_map.mp hb
      exact hout b e he hetp
    rw [htable,Function.comp_update]
    exact h.links.addHead hfresh (hash (pid task))
  · intro b e he
    rcases hmem b e he with rfl | he
    · exact hn
    · exact h.stored b e he
  · exact ⟨fun _ => hlock,fun _ => trivial⟩
  · intro a ha
    simp [owned] at ha
  · intro t' ht' a ha
    refine ⟨rfl,fun b e he => ?_⟩
    rcases hmem b e he with rfl | he
    · rintro rfl
      exact ht' (h.sole t' t _ ha (by rw [hp]; rfl))
    · exact (h.own t' a ha).2 b e he
  · intro a n' hn'
    rcases h.reached_cases t hn' with ⟨b,e,he,hea⟩ | ht | ht
    · refine .inl ⟨b,e,?_,hea⟩
      rw [htable]
      by_cases hb : b = hash (pid task)
      · subst hb
        rw [Function.update_self]
        exact List.mem_cons_of_mem _ he
      · rwa [Function.update_of_ne hb]
    · rw [hp] at ht
      obtain rfl : tp = a := Option.some.inj ht
      refine .inl ⟨hash (pid task),(tp,n),?_,rfl⟩
      rw [htable,Function.update_self]
      exact List.mem_cons_self ..
    · exact .inr (.inr ht)

theorem Safe.unlink (h : Safe hash pid c table) {task : Task} {cur : Addr}
    (hp : c.pc t = .unlinking task cur) :
    Safe hash pid
      ⟨{ c.memory with links := Hlist.delInit c.memory.links cur },
        Function.update c.pc t (.delUnlocking (some cur))⟩
      (tableAfter hash pid c.memory table (c.pc t)) := by
  have hlock : c.memory.lock = some t := (h.holder t).mp (by rw [hp]; trivial)
  have hc := h.cursor t
  rw [hp] at hc
  obtain ⟨n,pre,post,hchain,hid,hpre⟩ := hc
  have htable : tableAfter hash pid c.memory table (c.pc t) =
      Function.update table (hash (pid task)) (pre ++ post) := by
    simp only [tableAfter,hp,hchain,Found.eraseP_eq hid hpre]
  have hcur : (cur,n) ∈ table (hash (pid task)) := by simp [hchain]
  have hfst : (List.map Prod.fst ∘ table) (hash (pid task)) =
      pre.map Prod.fst ++ cur :: post.map Prod.fst := by simp [hchain]
  have hmem : ∀ b, ∀ e ∈ tableAfter hash pid c.memory table (c.pc t) b, e ∈ table b ∧ e.1 ≠ cur := by
    intro b e he
    rw [htable] at he
    by_cases hb : b = hash (pid task)
    · subst hb
      rw [Function.update_self] at he
      refine ⟨?_,?_⟩
      · rw [hchain]
        simp only [List.mem_append,List.mem_cons] at he ⊢
        exact he.imp_right .inr
      · have hnodup := h.links.nodup (hash (pid task))
        rw [hfst,List.nodup_middle,List.nodup_cons,← List.map_append] at hnodup
        exact fun hecur => hnodup.1 (hecur ▸ List.mem_map_of_mem he)
    · rw [Function.update_of_ne hb] at he
      refine ⟨he,fun hecur => hb ?_⟩
      refine h.links.disjoint b (hash (pid task)) cur ?_ ?_
      · exact List.mem_map.mpr ⟨e,he,hecur⟩
      · exact List.mem_map.mpr ⟨_,hcur,rfl⟩
  refine h.update ?_ ?_ ?_ (fun _ _ => Iff.rfl) (.inr hlock) ?_ ?_ ?_ trivial
  · rw [htable,Function.comp_update,List.map_append]
    exact h.links.delInit hfst
  · intro b e he
    exact h.stored b e (hmem b e he).1
  · exact ⟨fun _ => hlock,fun _ => trivial⟩
  · intro a ha
    obtain rfl : cur = a := Option.some.inj ha
    refine ⟨⟨n,h.stored _ _ hcur⟩,fun b e he => (hmem b e he).2,fun t' _ h' => ?_⟩
    exact (h.own t' cur h').2 _ _ hcur rfl
  · intro t' _ a ha
    exact ⟨rfl,fun b e he => (h.own t' a ha).2 b e (hmem b e he).1⟩
  · intro a n' hn'
    rcases h.reached_cases t hn' with ⟨b,e,he,hea⟩ | ht | ht
    · by_cases ha : a = cur
      · exact .inr (.inl (congrArg some ha.symm))
      · refine .inl ⟨b,e,?_,hea⟩
        rw [htable]
        by_cases hb : b = hash (pid task)
        · subst hb
          rw [hchain,List.mem_append,List.mem_cons] at he
          rw [Function.update_self,List.mem_append]
          refine he.imp_right (Or.resolve_left · ?_)
          rintro rfl
          exact ha hea.symm
        · rwa [Function.update_of_ne hb]
    · simp [hp,owned] at ht
    · exact .inr (.inr ht)

theorem Safe.free (h : Safe hash pid c table) {cur : Addr} {data : Word}
    (hp : c.pc t = .freeing cur data) :
    Safe hash pid
      ⟨{ c.memory with node := Function.update c.memory.node cur none },
        Function.update c.pc t (.returning (.pointer data))⟩ table := by
  have hcur : owned (c.pc t) = some cur := by rw [hp]; rfl
  have hi : ¬ Inside (c.pc t) := by rw [hp]; exact id
  refine h.update h.links ?_ ?_ (fun _ _ => Iff.rfl) (.inl rfl) ?_ ?_ ?_ trivial
  · intro b e he
    exact (Function.update_of_ne ((h.own t cur hcur).2 b e he) ..).trans (h.stored b e he)
  · exact ⟨False.elim,fun hl => hi ((h.holder t).mpr hl)⟩
  · intro a ha
    simp [owned] at ha
  · intro t' ht' a ha
    refine ⟨Function.update_of_ne ?_ ..,(h.own t' a ha).2⟩
    rintro rfl
    exact ht' (h.sole t' t _ ha hcur)
  · intro a n hn
    have ha : a ≠ cur := by
      rintro rfl
      simp at hn
    simp only [Function.update_of_ne ha] at hn
    rcases h.reached_cases t hn with ht | ht | ht
    · exact .inl ht
    · rw [hcur] at ht
      exact absurd (Option.some.inj ht).symm ha
    · exact .inr (.inr ht)

/-- Every step of a context keeps the invariant. -/
theorem Safe.advance (h : Safe hash pid c table) {kmalloc : Option Addr}
    (ha : advance hash pid t kmalloc c.memory (c.pc t) = some (m',p')) :
    Safe hash pid ⟨m',Function.update c.pc t p'⟩ (tableAfter hash pid c.memory table (c.pc t)) := by
  have hin := h.holder t
  have hown := h.own t
  have hcur := h.cursor t
  cases hp : c.pc t <;> rw [hp] at ha hin hown hcur
  case idle | returning | fault => cases ha
  case allocating task data =>
    cases kmalloc with
    | none =>
      cases ha
      exact h.move rfl rfl rfl (by rw [hp]; exact Iff.rfl) (by rw [hp]; rfl) trivial
    | some tp =>
      simp only [Concurrent.advance] at ha
      split at ha
      · cases ha
        rename_i hfree
        exact h.allocate (by rw [hp]; exact id) (by rw [hp]; rfl) hfree task data
      · cases ha
  case addLocking task tp =>
    simp only [Concurrent.advance] at ha
    split at ha <;> cases ha
    exact h.acquire ‹_› trivial (by rw [hp]; rfl) hcur
  case linking task tp =>
    cases ha
    exact hp ▸ h.link hp
  case counting =>
    cases ha
    exact h.move rfl rfl rfl (by rw [hp]; exact Iff.rfl) (by rw [hp]; rfl) trivial
  case addUnlocking =>
    cases ha
    exact h.release (by rw [hp]; trivial) id (by rw [hp]; rfl) trivial
  case delLocking task =>
    simp only [Concurrent.advance] at ha
    split at ha <;> cases ha
    exact h.acquire ‹_› trivial (by rw [hp]; rfl) (h.first (hash (pid task)) (pid task))
  case searching task cur =>
    cases cur with
    | none =>
      cases ha
      exact h.move rfl rfl rfl (by rw [hp]; exact Iff.rfl) (by rw [hp]; rfl) trivial
    | some cur =>
      obtain ⟨n,hn,-,hfound,hgo⟩ := h.walk hcur
      simp only [Concurrent.advance,hn] at ha
      split at ha <;> cases ha <;>
        refine h.move rfl rfl rfl (by rw [hp]; exact Iff.rfl) (by rw [hp]; rfl) ?_
      · exact ⟨n,hfound ‹_›⟩
      · exact hgo ‹_›
  case discounting task cur =>
    cases ha
    exact h.move rfl rfl rfl (by rw [hp]; exact Iff.rfl) (by rw [hp]; rfl) hcur
  case unlinking task cur =>
    cases ha
    exact hp ▸ h.unlink hp
  case delUnlocking cur =>
    cases cur <;> cases ha
    · exact h.release (by rw [hp]; trivial) id (by rw [hp]; rfl) trivial
    · exact h.release (by rw [hp]; trivial) id (by rw [hp]; rfl) trivial
  case taking cur =>
    obtain ⟨⟨n,hn⟩,-⟩ := hown cur rfl
    simp only [Concurrent.advance,hn] at ha
    cases ha
    exact h.move rfl rfl rfl (by rw [hp]; exact Iff.rfl) (by rw [hp]; rfl) trivial
  case freeing cur data =>
    obtain ⟨⟨n,hn⟩,-⟩ := hown cur rfl
    simp only [Concurrent.advance,hn] at ha
    cases ha
    exact h.free hp
  case queryLocking k task =>
    simp only [Concurrent.advance] at ha
    split at ha <;> cases ha
    · exact h.acquire ‹_› trivial (by rw [hp]; rfl) (h.first (hash (pid task)) (pid task))
    · exact h.move rfl rfl rfl (by rw [hp]; exact Iff.rfl) (by rw [hp]; rfl) trivial
  case querying k task cur =>
    cases cur with
    | none =>
      cases ha
      exact h.move rfl rfl rfl (by rw [hp]; exact Iff.rfl) (by rw [hp]; rfl) trivial
    | some cur =>
      obtain ⟨n,hn,hmem,-,hgo⟩ := h.walk hcur
      simp only [Concurrent.advance,hn] at ha
      split at ha <;> cases ha <;>
        refine h.move rfl rfl rfl (by rw [hp]; exact Iff.rfl) (by rw [hp]; rfl) ?_
      · exact ⟨_,n,hmem⟩
      · exact hgo ‹_›
  case queryUnlocking k cur =>
    cases k <;> cases cur <;> cases ha <;>
      exact h.release (by rw [hp]; trivial) id (by rw [hp]; rfl) trivial
  case reading cur =>
    simp only [Concurrent.advance] at ha
    split at ha <;> cases ha <;>
      exact h.move rfl rfl rfl (by rw [hp]; exact Iff.rfl) (by rw [hp]; rfl) (by simp [Cursor])

end Steps

/-- The chains after an action. -/
def tableNext (c : Config T Task Addr) (table : Bucket → List (Addr × TpNode)) :
    Action T Task Addr → Bucket → List (Addr × TpNode)
  | .step t kmalloc =>
    match advance hash pid t kmalloc c.memory (c.pc t) with
    | some _ => tableAfter hash pid c.memory table (c.pc t)
    | none => table
  | _ => table

theorem Safe.next {c : Config T Task Addr} {table : Bucket → List (Addr × TpNode)}
    (h : Safe hash pid c table) (a : Action T Task Addr) :
    Safe hash pid (next hash pid c a) (tableNext hash pid c table a) := by
  cases a with
  | call t op =>
    simp only [Concurrent.next,step,tableNext]
    split
    · rename_i hp
      refine h.move rfl rfl rfl ?_ ?_ ?_ <;> try rw [hp]
      · cases op <;> exact Iff.rfl
      · cases op <;> rfl
      · cases op <;> trivial
    · exact h
  | step t kmalloc =>
    simp only [Concurrent.next,step,tableNext]
    cases ha : Concurrent.advance hash pid t kmalloc c.memory (c.pc t) with
    | some r => exact h.advance ha
    | none => exact h
  | ret t =>
    simp only [Concurrent.next,step,tableNext]
    split
    · rename_i res hp
      exact h.move rfl rfl rfl (by rw [hp]; exact Iff.rfl) (by rw [hp]; rfl) trivial
    · exact h

theorem exists_safe (as : List (Action T Task Addr)) :
    ∃ table, Safe hash pid (as.foldl (next hash pid) initial) table := by
  refine List.foldlRecOn as (next hash pid) (motive := fun c => ∃ table, Safe hash pid c table)
    ⟨_,safe_initial hash pid⟩ ?_
  rintro c ⟨table,h⟩ a -
  exact ⟨_,h.next hash pid a⟩

/-- Memory safety over every interleaving. The links always hold well-formed chains; an allocated
node is on a chain, or one context alone has a pointer to it, so that nothing leaks and nothing
is freed twice; at most one context is in a critical section; and the only access to a freed
node is the read of `query_data_tracker` that follows its `spin_unlock`. -/
theorem memory_safe (as : List (Action T Task Addr)) :
    let c := as.foldl (next hash pid) initial
    ∃ chains, Hlist.Represents c.memory.links chains ∧
      (∀ a, (∃ n, c.memory.node a = some n) ↔
        (∃ b, a ∈ chains b) ∨ ∃ t, owned (c.pc t) = some a) ∧
      (∀ t a, owned (c.pc t) = some a →
        (∀ b, a ∉ chains b) ∧ ∀ t', owned (c.pc t') = some a → t' = t) ∧
      (∀ t t', Inside (c.pc t) → Inside (c.pc t') → t = t') ∧
      ∀ t site, c.pc t = .fault site → site = .reading := by
  intro c
  obtain ⟨table,h⟩ := exists_safe hash pid as
  have hmem : ∀ a b, a ∈ (List.map Prod.fst ∘ table) b ↔ ∃ e ∈ table b, e.1 = a := by
    intro a b
    exact List.mem_map
  refine ⟨_,h.links,fun a => ⟨?_,?_⟩,fun t a ha => ⟨?_,?_⟩,fun t t' ht ht' => ?_,?_⟩
  · rintro ⟨n,hn⟩
    exact (h.reached a n hn).imp_left fun ⟨b,he⟩ => ⟨b,(hmem a b).mpr he⟩
  · rintro (⟨b,hb⟩ | ⟨t,ht⟩)
    · obtain ⟨e,he,rfl⟩ := (hmem a b).mp hb
      exact ⟨e.2,h.stored b e he⟩
    · exact (h.own t a ht).1
  · intro b hb
    obtain ⟨e,he,hea⟩ := (hmem a b).mp hb
    exact (h.own t a ha).2 b e he hea
  · exact fun t' ha' => h.sole t' t a ha' ha
  · exact Option.some.inj (((h.holder t).mp ht).symm.trans ((h.holder t').mp ht'))
  · intro t site hp
    have hc := h.cursor t
    rw [show c.pc t = .fault site from hp] at hc
    exact hc

/-- The read that is left open: the node is found and the lock given back, another context
removes and frees it, and then `cur->data` is read. -/
example :
    let c := List.foldl (next (fun _ => 0) (fun _ : Unit => 1)) initial
      ([.call 0 (.add () 16),.step 0 (some 0),.step 0 none,.step 0 none,.step 0 none,.step 0 none,
        .ret 0,.call 1 (.queryData ()),.step 1 none,.step 1 none,.step 1 none,.call 0 (.del ()),
        .step 0 none,.step 0 none,.step 0 none,.step 0 none,.step 0 none,.step 0 none,
        .step 0 none,.step 1 none] : List (Action (Fin 2) Unit (Fin 1)))
    c.pc 1 = .fault .reading := by decide

/-- The own steps a query has left: the walk, its end, `spin_unlock` and the read. -/
def Left (chain : List (Addr × TpNode)) (k : Query) (task : Task) : ℕ → Pc Task Addr → Prop
  | 0,p => (∃ res, p = .returning res) ∨ k = .data ∧ p = .fault .reading
  | 1,p => k = .data ∧ ∃ cur, p = .reading cur
  | 2,p => ∃ cur, p = .queryUnlocking k cur
  | n+3,p => ∃ pre post, chain = pre ++ post ∧ post.length = n ∧
      p = .querying k task (post.head?.map Prod.fst)

/-- The steps of a context. -/
def isStep (t : T) : Action T Task Addr → Bool
  | .step t' _ => t' = t
  | _ => false

section Waiting
variable {hash pid} {c : Config T Task Addr} {table : Bucket → List (Addr × TpNode)} {t : T}
  {k : Query} {task : Task}

omit [DecidableEq T] in
lemma Safe.own_step (h : Safe hash pid c table) {n : ℕ}
    (hl : Left (table (hash (pid task))) k task (n+1) (c.pc t)) (kmalloc : Option Addr) :
    ∃ m ≤ n, ∃ r, Concurrent.advance hash pid t kmalloc c.memory (c.pc t) = some r ∧
      tableAfter hash pid c.memory table (c.pc t) = table ∧
      Left (table (hash (pid task))) k task m r.2 := by
  match n,hl with
  | 0,⟨hk,cur,hp⟩ =>
    refine ⟨0,le_refl 0,?_⟩
    cases hn : c.memory.node cur with
    | none =>
      refine ⟨(c.memory,.fault .reading),?_,by rw [hp]; rfl,.inr ⟨hk,rfl⟩⟩
      simp only [hp,Concurrent.advance,hn]
    | some n =>
      refine ⟨(c.memory,.returning (.pointer n.data)),?_,by rw [hp]; rfl,.inl ⟨_,rfl⟩⟩
      simp only [hp,Concurrent.advance,hn]
  | 1,⟨cur,hp⟩ =>
    rw [hp]
    cases k with
    | exist => exact ⟨0,Nat.zero_le 1,_,rfl,rfl,.inl ⟨_,rfl⟩⟩
    | data =>
      cases cur with
      | none => exact ⟨0,Nat.zero_le 1,_,rfl,rfl,.inl ⟨_,rfl⟩⟩
      | some cur => exact ⟨1,le_refl 1,_,rfl,rfl,rfl,_,rfl⟩
  | n+2,⟨pre,post,hchain,hlen,hp⟩ =>
    cases post with
    | nil =>
      refine ⟨2,by omega,?_⟩
      rw [hp]
      exact ⟨_,rfl,rfl,_,rfl⟩
    | cons e post =>
      obtain ⟨cur,n'⟩ := e
      have hn := h.stored _ (cur,n') (by rw [hchain]; simp)
      have hpath := h.links.path (hash (pid task))
      have hmap : (List.map Prod.fst ∘ table) (hash (pid task)) =
          pre.map Prod.fst ++ cur :: post.map Prod.fst := by simp [hchain]
      rw [hmap] at hpath
      have hnext := hpath.next
      rw [List.head?_map] at hnext
      rw [List.length_cons] at hlen
      have htable : tableAfter hash pid c.memory table (c.pc t) = table := by rw [hp]; rfl
      have hpc : c.pc t = .querying k task (some cur) := hp
      rw [hpc] at htable ⊢
      simp only [Concurrent.advance,hn,hnext]
      split
      · exact ⟨2,by omega,_,rfl,htable,_,rfl⟩
      · refine ⟨post.length + 3,by omega,_,rfl,htable,pre ++ [(cur,n')],post,?_,rfl,rfl⟩
        simp [hchain]

lemma Safe.left_other (h : Safe hash pid c table) {n : ℕ}
    (hl : Left (table (hash (pid task))) k task (n+1) (c.pc t)) {a : Action T Task Addr}
    (ha : isStep t a = false) :
    Left (tableNext hash pid c table a (hash (pid task))) k task (n+1)
      ((Concurrent.next hash pid c a).pc t) := by
  have hpc : (Concurrent.next hash pid c a).pc t = c.pc t := by
    cases a with
    | call t' op =>
      simp only [Concurrent.next,step]
      split
      · refine Function.update_of_ne ?_ ..
        rintro rfl
        match n,hl with
        | 0,⟨_,_,hp⟩ | 1,⟨_,hp⟩ | _+2,⟨_,_,_,_,hp⟩ => simp_all
      · rfl
    | step t' kmalloc =>
      have ht : t ≠ t' := by simpa [isStep,eq_comm] using ha
      simp only [Concurrent.next,step]
      split
      · exact Function.update_of_ne ht ..
      · rfl
    | ret t' =>
      simp only [Concurrent.next,step]
      split
      · refine Function.update_of_ne ?_ ..
        rintro rfl
        match n,hl with
        | 0,⟨_,_,hp⟩ | 1,⟨_,hp⟩ | _+2,⟨_,_,_,_,hp⟩ => simp_all
      · rfl
  rw [hpc]
  match n,hl with
  | 0,hl | 1,hl => exact hl
  | n+2,hl =>
    -- the walk holds the lock, so the chains stay
    have hin : Inside (c.pc t) := by
      obtain ⟨_,_,_,_,hp⟩ := hl
      rw [hp]
      trivial
    suffices htable : tableNext hash pid c table a = table by rwa [htable]
    cases a with
    | call | ret => rfl
    | step t' kmalloc =>
      have ht : ¬ Inside (c.pc t') := by
        intro hin'
        have he := ((h.holder t).mp hin).symm.trans ((h.holder t').mp hin')
        have hne : t' ≠ t := by simpa [isStep] using ha
        exact hne (Option.some.inj he).symm
      simp only [tableNext]
      split
      · cases hp : c.pc t' <;> first | rfl | exact absurd (by rw [hp]; trivial) ht
      · rfl

end Waiting

/-- A query never waits, neither for the lock nor for another context: whatever its trylock finds,
and however the steps of the others lie between its own, it is at its `return` after at most as
many further steps of its own as its chain has nodes, and three. So a query in an NMI ends even
where the NMI interrupted the holder of the lock. -/
theorem query_returns (as : List (Action T Task Addr)) (t : T) (k : Query) (task : Task)
    (hp : (as.foldl (next hash pid) initial).pc t = .queryLocking k task) :
    ∃ chains, Hlist.Represents (as.foldl (next hash pid) initial).memory.links chains ∧
      ∀ (kmalloc : Option Addr) (bs : List (Action T Task Addr)),
        (chains (hash (pid task))).length + 3 ≤ bs.countP (isStep t) → ∃ i,
          let run := as ++ .step t kmalloc :: bs.take i
          let p := (run.foldl (next hash pid) initial).pc t
          (∃ res, p = .returning res) ∨ k = .data ∧ p = .fault .reading := by
  obtain ⟨table,h⟩ := exists_safe hash pid as
  refine ⟨_,h.links,fun kmalloc bs hbs => ?_⟩
  set c := as.foldl (next hash pid) initial
  set c' := next hash pid c (.step t kmalloc) with hc'
  have hfirst : ∃ n ≤ (table (hash (pid task))).length + 3, ∃ table', Safe hash pid c' table' ∧
      Left (table' (hash (pid task))) k task n (c'.pc t) := by
    have hs := h.next hash pid (.step t kmalloc)
    rw [← hc'] at hs
    simp only [next,step,hp,advance] at hc'
    cases hlock : c.memory.lock with
    | none =>
      simp only [hlock] at hc'
      have htable : tableNext hash pid c table (.step t kmalloc) = table := by
        simp only [tableNext,hp,advance,hlock]
        rfl
      rw [htable] at hs
      refine ⟨_,le_refl _,table,hs,[],_,rfl,rfl,?_⟩
      rw [hc']
      simp only [Function.update_self]
      rw [(h.links.path _).target_eq]
      simp
    | some holder =>
      simp only [hlock] at hc'
      refine ⟨0,Nat.zero_le _,_,hs,.inl ⟨k.missed,?_⟩⟩
      rw [hc']
      simp only [Function.update_self]
  obtain ⟨n,hn,hl⟩ := hfirst
  have hrun := exists_take_of_bound (next hash pid) (isStep t)
    (I := fun n c => ∃ table, Safe hash pid c table ∧
      Left (table (hash (pid task))) k task n (c.pc t)) ?_ ?_ bs hl
    (hn.trans (by simpa using hbs))
  · obtain ⟨i,_,-,hi⟩ := hrun
    refine ⟨i,?_⟩
    simp only [List.foldl_append,List.foldl_cons]
    exact hi
  · rintro n d a ⟨tbl,hd,hleft⟩ ha
    cases a with
    | call | ret => simp [isStep] at ha
    | step t' kmalloc =>
      obtain rfl : t' = t := by simpa [isStep] using ha
      obtain ⟨m,hm,r,hr,htbl,hleft'⟩ := hd.own_step hleft kmalloc
      have hnext := hd.next hash pid (.step t' kmalloc)
      simp only [tableNext,hr,htbl] at hnext
      refine ⟨m,hm,tbl,hnext,?_⟩
      simpa only [next,step,hr,Function.update_self] using hleft'
  · rintro n d a ⟨tbl,hd,hleft⟩ ha
    exact ⟨_,hd.next hash pid a,hd.left_other hleft ha⟩

theorem query_returns_contended :
    let as : List (Action (Fin 2) (Fin 2) (Fin 2)) :=
      [.call 0 (.add 0 16),.step 0 (some 0),.step 0 none,.call 1 (.query 0)]
    let c := as.foldl (next (fun _ => 0) (fun t : Fin 2 => t.val)) initial
    ∃ chains, Hlist.Represents c.memory.links chains ∧
      ∀ (kmalloc : Option (Fin 2)) (bs : List (Action (Fin 2) (Fin 2) (Fin 2))),
        (chains 0).length + 3 ≤ bs.countP (isStep 1) → ∃ i,
          let run := as ++ .step 1 kmalloc :: bs.take i
          let p := (run.foldl (next (fun _ => 0) (fun t : Fin 2 => t.val)) initial).pc 1
          (∃ res, p = .returning res) ∨ Query.exist = .data ∧ p = .fault .reading :=
  query_returns (fun _ => 0) (fun t : Fin 2 => t.val) _ 1 .exist 0 (by decide)

end PmuMin.Hash.Concurrent
