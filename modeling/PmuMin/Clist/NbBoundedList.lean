import PmuMin.Library.Machine
import Mathlib.Data.BitVec
import Mathlib.Data.List.DropRight

/-! The list of `nbboundedlist.c`, called by one thread at a time. -/
namespace PmuMin.NbBoundedList

abbrev U64 := BitVec 64
abbrev Byte := BitVec 8

/-- The bytes from some address on. -/
abbrev Memory := ℕ → Byte

def TAIL_MASK : U64 := (1 <<< 32) - 1
def HEAD_MASK : U64 := ~~~TAIL_MASK
def TAIL (t : U64) : U64 := t &&& TAIL_MASK
def HEAD (h : U64) : U64 := (h &&& HEAD_MASK) >>> 32

@[simp] theorem toNat_TAIL (t : U64) : (TAIL t).toNat = t.toNat % 2^32 := by
  rw [TAIL,TAIL_MASK,BitVec.toNat_and]
  exact Nat.and_two_pow_sub_one_eq_mod _ 32

@[simp] theorem toNat_HEAD (h : U64) : (HEAD h).toNat = h.toNat / 2^32 := by
  have hshift : HEAD h = h >>> 32 := by
    apply BitVec.eq_of_getLsbD_eq
    intro i hi
    simp only [HEAD,BitVec.getLsbD_ushiftRight,BitVec.getLsbD_and]
    by_cases hlt : 32 + i < 64
    · have hmask : ∀ j : Fin 32, HEAD_MASK.getLsbD (32 + j) = true := by decide
      rw [hmask ⟨i,by omega⟩,Bool.and_true]
    · rw [BitVec.getLsbD_of_ge _ _ (by omega),Bool.false_and]
  rw [hshift,BitVec.toNat_ushiftRight,Nat.shiftRight_eq_div_pow]

theorem HEAD_eq_TAIL_zero : HEAD 0 = TAIL 0 := by decide

section Halves
variable (idx s : U64)

lemma toNat_TAIL_add : (TAIL (idx + s)).toNat = ((TAIL idx).toNat + s.toNat) % 2^32 := by
  simp only [toNat_TAIL,BitVec.toNat_add]
  omega

/-- A sum that TAIL has no room for goes on into HEAD. -/
lemma toNat_HEAD_add :
    (HEAD (idx + s)).toNat =
      ((HEAD idx).toNat + ((TAIL idx).toNat + s.toNat) / 2^32) % 2^32 := by
  have hidx := idx.isLt
  simp only [toNat_TAIL,toNat_HEAD,BitVec.toNat_add]
  omega

lemma toNat_shift : (s <<< 32).toNat = s.toNat % 2^32 * 2^32 := by
  rw [BitVec.toNat_shiftLeft,Nat.shiftLeft_eq]
  omega

lemma toNat_TAIL_add_shift : (TAIL (idx + s <<< 32)).toNat = (TAIL idx).toNat := by
  simp only [toNat_TAIL,BitVec.toNat_add,toNat_shift]
  omega

lemma toNat_HEAD_add_shift :
    (HEAD (idx + s <<< 32)).toNat = ((HEAD idx).toNat + s.toNat) % 2^32 := by
  simp only [toNat_HEAD,BitVec.toNat_add,toNat_shift]
  omega

end Halves

lemma TAIL_lt (idx : U64) : (TAIL idx).toNat < 2^32 := by
  rw [toNat_TAIL]
  exact Nat.mod_lt _ (by decide)

lemma HEAD_lt (idx : U64) : (HEAD idx).toNat < 2^32 := by
  have hidx := idx.isLt
  rw [toNat_HEAD]
  omega

section Room
variable {idx s : U64}

lemma toNat_HEAD_add_of_lt (h : (TAIL idx).toNat + s.toNat < 2^32) :
    (HEAD (idx + s)).toNat = (HEAD idx).toNat := by
  rw [toNat_HEAD_add,Nat.div_eq_of_lt h,Nat.add_zero,Nat.mod_eq_of_lt (HEAD_lt idx)]

lemma toNat_HEAD_add_shift_of_lt (h : (HEAD idx).toNat + s.toNat < 2^32) :
    (HEAD (idx + s <<< 32)).toNat = (HEAD idx).toNat + s.toNat := by
  rw [toNat_HEAD_add_shift,Nat.mod_eq_of_lt h]

end Room

/-- `struct nbblist`; `idx` packs HEAD and TAIL. Of what lies at `buf`, the list owns no more than
the `size` bytes that `kvmalloc` was asked for, less those of the other fields. -/
structure Nbblist where
  stride : U64
  len : U64
  idx : U64
  buf : Memory
  size : U64

/-- The `n` bytes at offset `d`. -/
def bytes (m : Memory) (d n : ℕ) : List Byte := (List.range n).map fun i => m (d + i)

def memcpy (dst : Memory) (d : ℕ) (src : Memory) (n : ℕ) : Memory := fun i =>
  if d ≤ i ∧ i < d + n then src (i - d) else dst i

/-- `sizeof(struct nbblist)`. -/
def sizeofNbblist : U64 := 24

/-- `sizeof` a pointer. -/
def sizeofPointer : U64 := 8

/-- `init_clist`; `kvmalloc` gives `buf` with what the memory held before. -/
def initClist (kvmalloc : Option Memory) (entry_count entry_size : U64) : Option Nbblist :=
  let size := sizeofNbblist + entry_count * entry_size
  kvmalloc.map fun buf => ⟨entry_size,entry_count,0,buf,size⟩

/-- What a `memcpy` of `read_clist` can write over: its parameter `bucket`, from the address of
that pointer on, or the caller's buffer that it points to. -/
inductive Place | parameter | buffer
  deriving DecidableEq, Repr

/-- A returned call of `read_clist`, with the stores it has made outside the list. -/
structure Read where
  ret : ℤ
  list : Nbblist
  stores : List (Place × List Byte)

/-- How a call of `read_clist` ends. Where its copy is longer than the parameter that it goes over,
it runs over the stack frame of the call, which never returns. -/
inductive Outcome
  | returned (out : Read)
  | overrun

/-- The `do … while` loop; no result when it still turns after `fuel` tests. -/
def awaitIndex : ℕ → Nbblist → Option U64
  | 0,_ => none
  | fuel+1,l =>
    let midx := l.idx
    if HEAD midx + l.len < TAIL midx then awaitIndex fuel l else some midx

/-- `read_clist`. The address of the parameter is passed to `memcpy`, not its value. -/
def readClist : ℕ → Nbblist → List (Place × List Byte) → Option Outcome
  | 0,_,_ => none
  | fuel+1,l,stores =>
    (awaitIndex fuel l).bind fun midx =>
      if HEAD midx = TAIL midx then some (.returned ⟨0,l,stores⟩)
      else
        let entry := l.stride * (HEAD midx % l.len)
        if sizeofPointer < l.stride then some .overrun
        else
          let stores := stores ++ [(.parameter,bytes l.buf entry.toNat l.stride.toNat)]
          -- cmpxchg
          if l.idx = midx then
            let ret := (l.stride.truncate 32).toInt
            some (.returned ⟨ret,{ l with idx := midx + l.stride <<< 32 },stores⟩)
          else readClist fuel l stores

/-- `write_clist`. -/
def writeClist (l : Nbblist) (bucket : Memory) : Nbblist :=
  let midx := l.idx
  let idx := l.idx + l.stride -- xadd
  let entry := l.stride * (TAIL midx % l.len)
  { l with
    buf := memcpy l.buf entry.toNat bucket l.stride.toNat
    idx := if HEAD midx + l.len = TAIL midx then idx + l.stride <<< 32 else idx }

theorem awaitIndex_eq_some {fuel : ℕ} {l : Nbblist} {midx : U64}
    (h : awaitIndex fuel l = some midx) : midx = l.idx := by
  induction fuel with
  | zero => cases h
  | succ fuel ih =>
    simp only [awaitIndex] at h
    split at h
    · exact ih h
    · exact (Option.some.inj h).symm

/-- While HEAD stays behind, the loop turns for ever. -/
theorem awaitIndex_eq_none {l : Nbblist} (hwait : HEAD l.idx + l.len < TAIL l.idx) (fuel : ℕ) :
    awaitIndex fuel l = none := by
  induction fuel with
  | zero => rfl
  | succ fuel ih => rw [awaitIndex,if_pos hwait,ih]

/-- How a call of `read_clist` can end. -/
theorem readClist_cases {fuel : ℕ} {l : Nbblist} {stores : List (Place × List Byte)} {r : Outcome}
    (h : readClist fuel l stores = some r) :
    (HEAD l.idx = TAIL l.idx ∧ r = .returned ⟨0,l,stores⟩) ∨
    (HEAD l.idx ≠ TAIL l.idx ∧ sizeofPointer < l.stride ∧ r = .overrun) ∨
    (HEAD l.idx ≠ TAIL l.idx ∧ ¬ sizeofPointer < l.stride ∧
      r = .returned ⟨(l.stride.truncate 32).toInt,{ l with idx := l.idx + l.stride <<< 32 },
        stores ++ [(.parameter,bytes l.buf (l.stride * (HEAD l.idx % l.len)).toNat
          l.stride.toNat)]⟩) := by
  cases fuel with
  | zero => cases h
  | succ fuel =>
    simp only [readClist,Option.bind_eq_some_iff] at h
    obtain ⟨midx,hmidx,h⟩ := h
    obtain rfl := awaitIndex_eq_some hmidx
    split at h
    · exact .inl ⟨‹_›,(Option.some.inj h).symm⟩
    · rename_i hne
      split at h
      · exact .inr (.inl ⟨hne,‹_›,(Option.some.inj h).symm⟩)
      · rw [if_pos rfl] at h
        exact .inr (.inr ⟨hne,‹_›,(Option.some.inj h).symm⟩)

/-- A call that returns, empty-handed or with an entry of at most the size of a pointer. -/
theorem readClist_returned {fuel : ℕ} {l : Nbblist} {stores : List (Place × List Byte)} {out : Read}
    (h : readClist fuel l stores = some (.returned out)) :
    (HEAD l.idx = TAIL l.idx ∧ out = ⟨0,l,stores⟩) ∨
    (HEAD l.idx ≠ TAIL l.idx ∧ ¬ sizeofPointer < l.stride ∧
      out = ⟨(l.stride.truncate 32).toInt,{ l with idx := l.idx + l.stride <<< 32 },
        stores ++ [(.parameter,bytes l.buf (l.stride * (HEAD l.idx % l.len)).toNat
          l.stride.toNat)]⟩) := by
  rcases readClist_cases h with ⟨hempty,hout⟩ | ⟨-,-,hout⟩ | ⟨hne,hstride,hout⟩
  · exact .inl ⟨hempty,Outcome.returned.inj hout⟩
  · cases hout
  · exact .inr ⟨hne,hstride,Outcome.returned.inj hout⟩

/-- A call on the list; the `fuel` of a read bounds the turns of its loops. -/
inductive Op
  | write (bucket : Memory)
  | read (fuel : ℕ)

namespace Op

def isWrite : Op → Bool
  | write _ => true
  | read _ => false

end Op

/-- The list and what a bounded queue would hold: the samples among the last ones written that
have not been read, oldest first. -/
structure Run where
  list : Nbblist
  pending : List (List Byte)

namespace Run

/-- The queue keeps the last `n` samples of `s` bytes, and a read that returns non-zero takes the
oldest. -/
def next (n s : U64) (r : Run) : Op → Run
  | .write bucket =>
    ⟨writeClist r.list bucket,(r.pending ++ [bytes bucket 0 s.toNat]).rtake n.toNat⟩
  | .read fuel =>
    match readClist fuel r.list [] with
    | some (.returned out) => ⟨out.list,if out.ret = 0 then r.pending else r.pending.tail⟩
    | some .overrun | none => r

/-- Each call comes to an end, and TAIL does not wrap. -/
def Completes (s : U64) (r : Run) : Op → Prop
  | .write _ => (TAIL r.list.idx).toNat + s.toNat < 2^32
  | .read fuel => (readClist fuel r.list []).isSome

instance (s : U64) (r : Run) : DecidablePred (r.Completes s) := fun op => by
  cases op <;> unfold Completes <;> infer_instance

/-- A read returns: non-zero with the oldest pending sample stored in the caller's buffer, or zero
with none pending. -/
def Fifo (r : Run) : Op → Prop
  | .write _ => True
  | .read fuel => ∀ outcome, readClist fuel r.list [] = some outcome → ∃ out, outcome = .returned out ∧
    if out.ret = 0 then r.pending = []
    else ∃ x, r.pending.head? = some x ∧ (.buffer,x) ∈ out.stores

end Run

/-- The list has the sizes it was made with and knows that some sample is pending. -/
structure Backlog (n s : U64) (r : Run) : Prop where
  stride : r.list.stride = s
  len : r.list.len = n
  ordered : (HEAD r.list.idx).toNat < (TAIL r.list.idx).toNat
  pending : r.pending ≠ []

lemma rtake_concat_ne_nil {α : Type} (q : List α) (x : α) {n : ℕ} (hn : n ≠ 0) :
    (q ++ [x]).rtake n ≠ [] := by
  obtain ⟨n,rfl⟩ := Nat.exists_eq_succ_of_ne_zero hn
  simp

/-- HEAD stays behind TAIL in a write, overwriting or not. -/
lemma ordered_writeClist {l : Nbblist} {bucket : Memory} (hlen : l.len ≠ 0) (hstride : l.stride ≠ 0)
    (hordered : (HEAD l.idx).toNat ≤ (TAIL l.idx).toNat)
    (hwrap : (TAIL l.idx).toNat + l.stride.toNat < 2^32) :
    (HEAD (writeClist l bucket).idx).toNat < (TAIL (writeClist l bucket).idx).toNat := by
  have hs : 0 < l.stride.toNat := BitVec.toNat_pos_of_ne_zero hstride
  have htail : (TAIL (l.idx + l.stride)).toNat = (TAIL l.idx).toNat + l.stride.toNat := by
    rw [toNat_TAIL_add,Nat.mod_eq_of_lt hwrap]
  have hhead : (HEAD (l.idx + l.stride)).toNat = (HEAD l.idx).toNat := toNat_HEAD_add_of_lt hwrap
  simp only [writeClist]
  split
  · rename_i hfull
    have hne : HEAD l.idx ≠ TAIL l.idx := by
      intro heq
      rw [← heq] at hfull
      exact hlen (BitVec.add_right_eq_self.mp hfull)
    have hlt : (HEAD l.idx).toNat < (TAIL l.idx).toNat :=
      hordered.lt_of_ne fun h => hne (BitVec.eq_of_toNat_eq h)
    rw [toNat_TAIL_add_shift,htail,toNat_HEAD_add_shift_of_lt (by omega),hhead]
    omega
  · rw [htail,hhead]
    omega

theorem Backlog.of_write {n s : U64} (hn : n ≠ 0) (hs : s ≠ 0) {r : Run} {bucket : Memory}
    (hstride : r.list.stride = s) (hlen : r.list.len = n)
    (hordered : (HEAD r.list.idx).toNat ≤ (TAIL r.list.idx).toNat)
    (hw : r.Completes s (.write bucket)) : Backlog n s (r.next n s (.write bucket)) := by
  subst hstride hlen
  have hn' : r.list.len.toNat ≠ 0 := fun h => hn (BitVec.eq_of_toNat_eq h)
  exact ⟨rfl,rfl,ordered_writeClist hn hs hordered hw,rtake_concat_ne_nil _ _ hn'⟩

/-- A read in a backlog does not return, or returns non-zero and has stored over its parameter
only. -/
theorem Backlog.not_fifo_read {n s : U64} (hs : s ≠ 0) (hlt : s.toNat < 2^32) {r : Run} {fuel : ℕ}
    (h : Backlog n s r) (hw : r.Completes s (.read fuel)) : ¬ r.Fifo (.read fuel) := by
  intro hfifo
  obtain ⟨outcome,houtcome⟩ := Option.isSome_iff_exists.mp hw
  obtain ⟨out,rfl,hpost⟩ := hfifo outcome houtcome
  rcases readClist_returned houtcome with ⟨hempty,-⟩ | ⟨-,-,rfl⟩
  · exact absurd (congrArg BitVec.toNat hempty) (Nat.ne_of_lt h.ordered)
  · have hret : (r.list.stride.truncate 32).toInt ≠ 0 := by
      intro h0
      have hzero : s.truncate 32 = 0 := by
        rw [← h.stride]
        exact BitVec.toInt_inj.mp (h0.trans BitVec.toInt_zero.symm)
      have htrunc : (s.truncate 32).toNat = s.toNat := by
        rw [BitVec.truncate_eq_setWidth,BitVec.toNat_setWidth,Nat.mod_eq_of_lt hlt]
      rw [hzero] at htrunc
      exact hs (BitVec.eq_of_toNat_eq htrunc.symm)
    rw [if_neg hret] at hpost
    obtain ⟨x,-,hx⟩ := hpost
    simp at hx

/-- With samples pending, only a run without reads behaves as the queue. -/
lemma fifo_iff_of_backlog {n s : U64} (hn : n ≠ 0) (hs : s ≠ 0) (hlt : s.toNat < 2^32) {r : Run}
    {ops : List Op} (h : Backlog n s r)
    (hrun : Machine.Admits (Run.next n s) (Run.Completes s) r ops) :
    Machine.Admits (Run.next n s) Run.Fifo r ops ↔ ∀ op ∈ ops, op.isWrite = true := by
  induction ops generalizing r with
  | nil => simp [Machine.Admits]
  | cons op ops ih =>
    obtain ⟨hop,hops⟩ := hrun
    simp only [Machine.Admits,List.forall_mem_cons]
    cases op with
    | write bucket =>
      have h' := Backlog.of_write hn hs h.stride h.len h.ordered.le hop
      exact and_congr (by simp [Run.Fifo,Op.isWrite]) (ih h' hops)
    | read fuel =>
      exact iff_of_false (fun hfifo => h.not_fifo_read hs hlt hop hfifo.1)
        (fun hall => Bool.false_ne_true hall.1)

/-- A read of a new list finds it empty and leaves it as it is. -/
lemma readClist_initClist {n s size : U64} {mem : Memory} {l : Nbblist}
    (hl : l = ⟨s,n,0,mem,size⟩) {fuel : ℕ} {outcome : Outcome}
    (houtcome : readClist fuel l [] = some outcome) : outcome = .returned ⟨0,l,[]⟩ := by
  subst hl
  rcases readClist_cases houtcome with ⟨-,rfl⟩ | ⟨hne,-⟩ | ⟨hne,-⟩
  · rfl
  · exact absurd HEAD_eq_TAIL_zero hne
  · exact absurd HEAD_eq_TAIL_zero hne

/-- A sample of one byte is written to a list of four entries and read again: the read returns
one, but has stored the byte over its own parameter. -/
theorem write_read_stores_nothing :
    let l : Nbblist := ⟨1,4,0,fun _ => 0,28⟩
    initClist (some fun _ => 0) 4 1 = some l ∧
      Machine.Admits (Run.next 4 1) (Run.Completes 1) ⟨l,[]⟩ [.write fun _ => 7,.read 2] ∧
      ¬ Machine.Admits (Run.next 4 1) Run.Fifo ⟨l,[]⟩ [.write fun _ => 7,.read 2] := by
  refine ⟨rfl,⟨by decide,by decide,trivial⟩,?_⟩
  rintro ⟨-,hread,-⟩
  obtain ⟨out,hout,hpost⟩ := hread _ rfl
  obtain rfl := Outcome.returned.inj hout
  obtain ⟨x,-,hx⟩ := (if_neg (by decide)).mp hpost
  simp at hx

/-- `read_clist` hands no sample out: a run of completed calls, in which TAIL does not wrap, is
one of the bounded queue exactly when no read follows a write. -/
theorem fifo_iff_reads_first {n s : U64} (hn : n ≠ 0) (hs : s ≠ 0) {mem : Memory} {l : Nbblist}
    (hl : initClist (some mem) n s = some l) {ops : List Op}
    (hrun : Machine.Admits (Run.next n s) (Run.Completes s) ⟨l,[]⟩ ops) :
    Machine.Admits (Run.next n s) Run.Fifo ⟨l,[]⟩ ops ↔
      ops.Pairwise fun a b => a.isWrite = true → b.isWrite = true := by
  replace hl : l = ⟨s,n,0,mem,sizeofNbblist + n * s⟩ := (Option.some.inj hl).symm
  induction ops with
  | nil => simp [Machine.Admits]
  | cons op ops ih =>
    obtain ⟨hop,hops⟩ := hrun
    simp only [Machine.Admits,List.pairwise_cons]
    cases op with
    | write bucket =>
      have hlt : s.toNat < 2^32 := by simp only [Run.Completes] at hop; omega
      have h : Backlog n s (Run.next n s ⟨l,[]⟩ (.write bucket)) := by
        subst hl
        exact Backlog.of_write hn hs rfl rfl (congrArg BitVec.toNat HEAD_eq_TAIL_zero).le hop
      rw [fifo_iff_of_backlog hn hs hlt h hops]
      constructor
      · rintro ⟨-,hall⟩
        exact ⟨fun b hb _ => hall b hb,List.pairwise_of_forall_mem_list fun _ _ b hb _ => hall b hb⟩
      · rintro ⟨hall,-⟩
        exact ⟨trivial,fun b hb => hall b hb rfl⟩
    | read fuel =>
      obtain ⟨outcome,houtcome⟩ := Option.isSome_iff_exists.mp hop
      obtain rfl := readClist_initClist hl houtcome
      have hnext : Run.next n s ⟨l,[]⟩ (.read fuel) = ⟨l,[]⟩ := by
        simp only [Run.next,houtcome,if_true]
      rw [hnext] at hops ⊢
      have hfifo : Run.Fifo ⟨l,[]⟩ (.read fuel) := by
        intro outcome' houtcome'
        obtain rfl := Option.some.inj (houtcome.symm.trans houtcome')
        refine ⟨_,rfl,?_⟩
        rw [if_pos rfl]
      exact and_congr (iff_of_true hfifo fun _ _ hread => absurd hread Bool.false_ne_true) (ih hops)

/-- An empty read and two writes, as the list serves them. -/
theorem fifo_iff_reads_first_served :
    Machine.Admits (Run.next 4 1) Run.Fifo ⟨⟨1,4,0,fun _ => 0,28⟩,[]⟩
      [.read 2,.write fun _ => 7,.write fun _ => 8] :=
  have hl : initClist (some fun _ => 0) 4 1 = some ⟨1,4,0,fun _ => 0,28⟩ := rfl
  have hrun : Machine.Admits (Run.next 4 1) (Run.Completes 1) ⟨⟨1,4,0,fun _ => 0,28⟩,[]⟩
      [.read 2,.write fun _ => 7,.write fun _ => 8] := ⟨by decide,by decide,by decide,trivial⟩
  (fifo_iff_reads_first (by decide) (by decide) hl hrun).mpr (by decide)

end PmuMin.NbBoundedList
