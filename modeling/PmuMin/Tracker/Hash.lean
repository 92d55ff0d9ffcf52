import PmuMin.Tracker.Interface
import PmuMin.Library.ChainedTable
import Mathlib.Data.BitVec
import Mathlib.Tactic.Ring

/-! The tracker of `ptracker_hash.c`: a hash table of heap-allocated nodes, indexed by the pid
of the task. Whatever the hash function, it is one stack of data for each pid. -/
namespace PmuMin.Hash
open Machine

/-- `pid_t`. -/
abbrev Pid := ℤ

/-- The buckets of `DECLARE_HASHTABLE(tracked_map, 8)`. -/
abbrev Bucket := Fin (2^8)

/-- `struct tp_node`, its list link left to the chain that holds it. -/
structure TpNode where
  id : Pid
  data : Word
  deriving DecidableEq, Repr

/-- The static variables; `tracked_count` is an `int`. -/
structure State where
  trackedMap : Bucket → List TpNode
  trackedCount : BitVec 32

def trackerInit : State := ⟨fun _ => [],0⟩

/-- The loop `hash_for_each_possible` of the two queries, left at the first match. -/
def findNode (id : Pid) : List TpNode → Option TpNode
  | [] => none
  | cur :: rest => if cur.id = id then some cur else findNode id rest

/-- The loop `hash_for_each_possible_safe` of `tracker_del`: the node it unlinks, if any, and
the chain it leaves. -/
def unlinkNode (id : Pid) : List TpNode → Option TpNode × List TpNode
  | [] => (none,[])
  | cur :: rest =>
    if cur.id = id then (some cur,rest)
    else ((unlinkNode id rest).1,cur :: (unlinkNode id rest).2)

variable {Task : Type} (hash : Pid → Bucket) (pid : Task → Pid)

def trackerAdd (ctx : Context) (s : State) (task : Task) (data : Word) : State × ℤ :=
  let id := pid task
  if ctx.alloc then
    ({ trackedMap := Function.update s.trackedMap (hash id) (⟨id,data⟩ :: s.trackedMap (hash id))
       trackedCount := s.trackedCount + 1 },0)
  else (s,-ENOMEM)

def trackerDel (s : State) (task : Task) : State × Word :=
  let id := pid task
  match unlinkNode id (s.trackedMap (hash id)) with
  | (some cur,chain) =>
    ({ trackedMap := Function.update s.trackedMap (hash id) chain
       trackedCount := s.trackedCount - 1 },cur.data)
  | (none,_) => (s,NULL)

def queryTracker (ctx : Context) (s : State) (task : Task) : Bool :=
  if ctx.trylock then (findNode (pid task) (s.trackedMap (hash (pid task)))).isSome else false

def queryDataTracker (ctx : Context) (s : State) (task : Task) : Word :=
  if ctx.trylock then
    match findNode (pid task) (s.trackedMap (hash (pid task))) with
    | some cur => cur.data
    | none => NULL
  else NULL

def tracker : Tracker Task State where
  trackerAdd := trackerAdd hash pid
  trackerDel _ := trackerDel hash pid
  queryTracker := queryTracker hash pid
  queryDataTracker := queryDataTracker hash pid

lemma findNode_eq (id : Pid) (chain : List TpNode) :
    findNode id chain = chain.find? (fun n => n.id = id) := by
  induction chain with
  | nil => rfl
  | cons cur rest ih => by_cases h : cur.id = id <;> simp [findNode,h,ih]

lemma unlinkNode_eq (id : Pid) (chain : List TpNode) :
    unlinkNode id chain =
      (chain.find? (fun n => n.id = id),chain.eraseP (fun n => n.id = id)) := by
  induction chain with
  | nil => rfl
  | cons cur rest ih => by_cases h : cur.id = id <;> simp [unlinkNode,h,ih]

/-- The nodes of a pid, the most recent first. -/
def nodesOf (s : State) (id : Pid) : List TpNode :=
  ChainedTable.stack hash TpNode.id s.trackedMap id

/-- The data stored for a pid, the most recent first. -/
def dataOf (s : State) (id : Pid) : List Word := (nodesOf hash s id).map TpNode.data

/-- The number of nodes in the table. -/
def stored (s : State) : ℕ := ∑ b, (s.trackedMap b).length

@[simp] theorem stored_trackerInit : stored trackerInit = 0 := by simp [stored,trackerInit]

lemma stored_eq_total (s : State) :
    stored s = ChainedTable.total (fun _ => 1) s.trackedMap := by
  simp [stored,ChainedTable.total,ChainedTable.weight_one]

theorem trackerAdd_of_alloc (ctx : Context) (h : ctx.alloc = true) (s : State) (task : Task)
    (data : Word) :
    trackerAdd hash pid ctx s task data =
      (⟨ChainedTable.push hash TpNode.id s.trackedMap ⟨pid task,data⟩,s.trackedCount + 1⟩,0) := by
  simp [trackerAdd,h,ChainedTable.push]

theorem trackerAdd_of_not_alloc (ctx : Context) (h : ctx.alloc = false) (s : State) (task : Task)
    (data : Word) : trackerAdd hash pid ctx s task data = (s,-ENOMEM) := by
  simp [trackerAdd,h]

/-- What `tracker_del` does, read off the stack of the pid. -/
theorem trackerDel_cases (s : State) (task : Task) :
    (nodesOf hash s (pid task) = [] ∧ trackerDel hash pid s task = (s,NULL)) ∨
    ∃ cur rest, nodesOf hash s (pid task) = cur :: rest ∧
      trackerDel hash pid s task =
        (⟨ChainedTable.pop hash TpNode.id s.trackedMap (pid task),s.trackedCount - 1⟩,cur.data) := by
  have hf : (s.trackedMap (hash (pid task))).find? (fun n => n.id = pid task) =
      (nodesOf hash s (pid task)).head? := ChainedTable.find?_eq_head?_stack hash TpNode.id _ _
  cases hs : nodesOf hash s (pid task) with
  | nil =>
    left
    rw [hs,List.head?_nil] at hf
    exact ⟨rfl,by simp [trackerDel,unlinkNode_eq,hf]⟩
  | cons cur rest =>
    right
    rw [hs,List.head?_cons] at hf
    exact ⟨cur,rest,rfl,by simp [trackerDel,unlinkNode_eq,hf,ChainedTable.pop]⟩

theorem queryTracker_eq (ctx : Context) (h : ctx.trylock = true) (s : State) (task : Task) :
    queryTracker hash pid ctx s task = !(dataOf hash s (pid task)).isEmpty := by
  rw [queryTracker,if_pos h,findNode_eq,ChainedTable.find?_eq_head?_stack,dataOf,nodesOf]
  cases ChainedTable.stack hash TpNode.id s.trackedMap (pid task) <;> rfl

theorem queryDataTracker_eq (ctx : Context) (h : ctx.trylock = true) (s : State) (task : Task) :
    queryDataTracker hash pid ctx s task = (dataOf hash s (pid task)).headD NULL := by
  rw [queryDataTracker,if_pos h,findNode_eq,ChainedTable.find?_eq_head?_stack,dataOf,nodesOf]
  cases ChainedTable.stack hash TpNode.id s.trackedMap (pid task) <;> rfl

theorem dataOf_push (s : State) (task : Task) (data : Word) (n : BitVec 32) :
    dataOf hash ⟨ChainedTable.push hash TpNode.id s.trackedMap ⟨pid task,data⟩,n⟩ =
      Function.update (dataOf hash s) (pid task) (data :: dataOf hash s (pid task)) := by
  refine Function.eq_update_iff.mpr ⟨?_,fun id hid => ?_⟩ <;>
    simp only [dataOf,nodesOf,ChainedTable.stack_push]
  · simp
  · rw [if_neg (Ne.symm hid)]

theorem dataOf_pop (s : State) (task : Task) (n : BitVec 32) :
    dataOf hash ⟨ChainedTable.pop hash TpNode.id s.trackedMap (pid task),n⟩ =
      Function.update (dataOf hash s) (pid task) (dataOf hash s (pid task)).tail := by
  refine Function.eq_update_iff.mpr ⟨?_,fun id hid => ?_⟩ <;>
    simp only [dataOf,nodesOf,ChainedTable.stack_pop]
  · simp
  · rw [if_neg (Ne.symm hid)]

theorem dataOf_trackerAdd (ctx : Context) (h : ctx.alloc = true) (s : State) (task : Task)
    (data : Word) :
    dataOf hash (trackerAdd hash pid ctx s task data).1 =
      Function.update (dataOf hash s) (pid task) (data :: dataOf hash s (pid task)) := by
  rw [trackerAdd_of_alloc hash pid ctx h,dataOf_push]

theorem dataOf_trackerDel (s : State) (task : Task) :
    dataOf hash (trackerDel hash pid s task).1 =
      Function.update (dataOf hash s) (pid task) (dataOf hash s (pid task)).tail := by
  rcases trackerDel_cases hash pid s task with ⟨hs,hd⟩ | ⟨cur,rest,-,hd⟩
  · have hnil : dataOf hash s (pid task) = [] := by simp [dataOf,hs]
    rw [hd,hnil,List.tail_nil,← hnil,Function.update_eq_self]
  · rw [hd,dataOf_pop]

theorem trackerDel_data (s : State) (task : Task) :
    (trackerDel hash pid s task).2 = (dataOf hash s (pid task)).headD NULL := by
  rcases trackerDel_cases hash pid s task with ⟨hs,hd⟩ | ⟨cur,rest,hs,hd⟩ <;>
    simp [hd,dataOf,hs]

/-- The table stores the stacks `m`: each node lies in the bucket of its own id, the chains
hold the data of a pid in stack order, and `tracked_count` is the number of nodes as far as an
`int` can say. -/
structure Represents (s : State) (m : Pid → List Word) : Prop where
  data : dataOf hash s = m
  placed : ChainedTable.WellPlaced hash TpNode.id s.trackedMap
  count : s.trackedCount = BitVec.ofNat 32 (stored s)

theorem represents_trackerInit : Represents hash trackerInit (fun _ => []) where
  data := rfl
  placed := by intro b n hn; simp [trackerInit] at hn
  count := by simp [trackerInit,stored]

lemma Represents.push {s : State} {m : Pid → List Word} (h : Represents hash s m) (task : Task)
    (data : Word) :
    Represents hash
      ⟨ChainedTable.push hash TpNode.id s.trackedMap ⟨pid task,data⟩,s.trackedCount + 1⟩
      (Function.update m (pid task) (data :: m (pid task))) where
  data := by rw [dataOf_push,h.data]
  placed := h.placed.push hash TpNode.id _
  count := by
    rw [stored_eq_total,ChainedTable.total_push,← stored_eq_total s,h.count]
    simp [BitVec.ofNat_add]

lemma Represents.pop {s : State} {m : Pid → List Word} (h : Represents hash s m) (task : Task)
    {cur : TpNode} {rest : List TpNode} (hs : nodesOf hash s (pid task) = cur :: rest) :
    Represents hash
      ⟨ChainedTable.pop hash TpNode.id s.trackedMap (pid task),s.trackedCount - 1⟩
      (Function.update m (pid task) (m (pid task)).tail) where
  data := by rw [dataOf_pop,h.data]
  placed := h.placed.pop hash TpNode.id _
  count := by
    have ht := ChainedTable.total_pop hash TpNode.id (fun _ => 1) s.trackedMap (pid task)
    have hs' : ChainedTable.stack hash TpNode.id s.trackedMap (pid task) = cur :: rest := hs
    rw [hs'] at ht
    simp only [List.head?_cons,Option.toList_some,ChainedTable.weight_cons,
      ChainedTable.weight_nil] at ht
    rw [← stored_eq_total s] at ht
    rw [stored_eq_total,h.count,← ht,BitVec.ofNat_add]
    simp

/-- One call on the table and on the stacks it stores. -/
theorem represents_step {s : State} {m : Pid → List Word} (h : Represents hash s m)
    (c : Call Task) (hc : c.ctx.trylock = true) :
    Represents hash ((tracker hash pid).step s c).1 ((Tracker.lifo pid).step m c).1 ∧
      ((tracker hash pid).step s c).2 = ((Tracker.lifo pid).step m c).2 := by
  obtain ⟨ctx,op⟩ := c
  cases op with
  | add task data =>
    simp only [Tracker.step,tracker,Tracker.lifo]
    cases ha : ctx.alloc with
    | false =>
      rw [trackerAdd_of_not_alloc hash pid ctx ha]
      exact ⟨h,rfl⟩
    | true =>
      rw [trackerAdd_of_alloc hash pid ctx ha]
      exact ⟨h.push hash pid task data,rfl⟩
  | del task =>
    simp only [Tracker.step,tracker,Tracker.lifo,← h.data]
    rcases trackerDel_cases hash pid s task with ⟨hs,hd⟩ | ⟨cur,rest,hs,hd⟩
    · have hnil : dataOf hash s (pid task) = [] := by simp [dataOf,hs]
      rw [hd,hnil]
      refine ⟨?_,rfl⟩
      rw [List.tail_nil,← hnil,Function.update_eq_self,h.data]
      exact h
    · rw [hd]
      refine ⟨?_,by simp [dataOf,hs]⟩
      rw [h.data]
      exact h.pop hash pid task hs
  | query task =>
    simp only [Tracker.step,tracker,Tracker.lifo]
    exact ⟨h,by rw [queryTracker_eq hash pid ctx hc,h.data]⟩
  | queryData task =>
    simp only [Tracker.step,tracker,Tracker.lifo]
    exact ⟨h,by rw [queryDataTracker_eq hash pid ctx hc,h.data]⟩

/-- A whole run on the table and on the stacks. -/
theorem represents_run {s : State} {m : Pid → List Word} (h : Represents hash s m)
    {calls : List (Call Task)}
    (hc : Admits (Tracker.lifo pid).next (fun _ c => c.ctx.trylock = true) m calls) :
    Represents hash (final (tracker hash pid).step s calls)
        (final (Tracker.lifo pid).step m calls) ∧
      outputs (tracker hash pid).step s calls = outputs (Tracker.lifo pid).step m calls :=
  simulation (R := Represents hash) (fun _ _ c hR hp => represents_step hash pid hR c hp) h hc

lemma toInt_ofNat_of_lt {n : ℕ} (h : n < 2^31) : (BitVec.ofNat 32 n).toInt = n := by
  rw [BitVec.toInt_eq_toNat_cond,BitVec.toNat_ofNat,Nat.mod_eq_of_lt (by omega),if_pos (by omega)]

lemma stored_trackerAdd (ctx : Context) (h : ctx.alloc = true) (s : State) (task : Task)
    (data : Word) : stored (trackerAdd hash pid ctx s task data).1 = stored s + 1 := by
  rw [trackerAdd_of_alloc hash pid ctx h,stored_eq_total,ChainedTable.total_push,
    ← stored_eq_total s]

lemma stored_replicate_add (ctx : Context) (h : ctx.alloc = true) (task : Task) (data : Word)
    (s : State) (n : ℕ) :
    stored (final (tracker hash pid).step s (List.replicate n ⟨ctx,.add task data⟩)) =
      stored s + n := by
  induction n generalizing s with
  | zero => simp
  | succ n ih =>
    have hs := stored_trackerAdd hash pid ctx h s task data
    rw [List.replicate_succ,final_cons,ih]
    simp only [Tracker.step,tracker,hs]
    omega

/-- The table is a family of stacks: over any run, whatever the hash function and the outcomes
of `kmalloc`, every call returns what the stack of its pid returns, the table then stores
exactly these stacks, and `tracked_count` is the number of nodes as long as an `int` holds it,
in general its residue in the range of an `int`. -/
theorem tracker_refines_lifo (calls : List (Call Task))
    (hlock : ∀ c ∈ calls, c.ctx.trylock = true) :
    let s := final (tracker hash pid).step trackerInit calls
    outputs (tracker hash pid).step trackerInit calls =
        outputs (Tracker.lifo pid).step (fun _ => []) calls ∧
      (∀ id, dataOf hash s id = final (Tracker.lifo pid).step (fun _ => []) calls id) ∧
      s.trackedCount.toInt = (stored s : ℤ).bmod (2^32) ∧
      (stored s < 2^31 → s.trackedCount.toInt = stored s) := by
  intro s
  have hadm : Admits (Tracker.lifo pid).next (fun _ c => c.ctx.trylock = true)
      (fun _ => []) calls := admits_of_forall fun c hc _ => hlock c hc
  obtain ⟨hR,hout⟩ := represents_run hash pid (represents_trackerInit hash) hadm
  refine ⟨hout,fun id => congrFun hR.data id,?_,fun hs => ?_⟩
  · exact (congrArg BitVec.toInt hR.count).trans (BitVec.toInt_ofNat' ..)
  · exact (congrArg BitVec.toInt hR.count).trans (toInt_ofNat_of_lt hs)

/-- Two pids in one bucket, one of them registered twice. -/
theorem tracker_refines_lifo_colliding :
    outputs (tracker (fun _ => 0) (fun t : Fin 2 => t.val)).step trackerInit
      [⟨⟨0,true,true⟩,.add 0 16⟩,⟨⟨0,true,true⟩,.add 1 32⟩,⟨⟨0,true,true⟩,.add 0 48⟩,
        ⟨⟨0,false,true⟩,.add 1 64⟩,⟨⟨0,true,true⟩,.del 0⟩,⟨⟨0,true,true⟩,.queryData 0⟩] =
      [.code 0,.code 0,.code 0,.code (-ENOMEM),.pointer 48,.pointer 16] :=
  (tracker_refines_lifo (fun _ => 0) (fun t : Fin 2 => t.val) _ (by decide)).1.trans (by decide)

/-- With `2^31` nodes in the table `tracked_count` is negative. -/
theorem trackedCount_overflows :
    let calls : List (Call Unit) := List.replicate (2^31) ⟨⟨0,true,true⟩,.add () 16⟩
    let s := final (tracker (fun _ => 0) (fun _ => 1)).step trackerInit calls
    stored s = 2^31 ∧ s.trackedCount.toInt < 0 ∧ s.trackedCount.toInt ≠ stored s := by
  intro calls s
  have hadm : Admits (Tracker.lifo (fun _ : Unit => (1 : Pid))).next
      (fun _ c => c.ctx.trylock = true) (fun _ => []) calls :=
    admits_of_forall fun c hc _ => by rw [List.eq_of_mem_replicate hc]
  have hcount := (represents_run (fun _ => 0) (fun _ => 1) (represents_trackerInit _) hadm).1.count
  have hs : stored s = 2^31 :=
    (stored_replicate_add _ _ _ rfl () 16 trackerInit (2^31)).trans (by simp)
  have hn : s.trackedCount = BitVec.ofNat 32 (2^31) := hcount.trans (congrArg _ hs)
  rw [hn,hs]
  decide

end PmuMin.Hash
