import PmuMin.Client.Heap
import PmuMin.Library.Machine
import Mathlib.Data.BitVec

/-! The raw device: `breader_read` of `breader_raw.c`, with its mix of 64-bit positions and
lengths and of `int` locals. -/
namespace PmuMin.Breader
open Machine Client

def DATA_BUFFER_ORDER : ℕ := 10
def DATA_BUFFER_SIZE : ℕ := PAGE_SIZE <<< DATA_BUFFER_ORDER
def DATA_BUFFER_LEN : ℕ := DATA_BUFFER_SIZE / 8

abbrev Byte := BitVec 8

/-- The result of a read, the position it leaves and the bytes that reached user space. -/
structure Reply where
  ret : BitVec 64
  ppos : BitVec 64
  delivered : List Byte
  deriving DecidableEq, Repr

/-- `breader_read`. `mem` is the memory from `data_buffer` on, beyond its end too, and `failed` the
number of bytes that `copy_to_user` could not copy. -/
def breaderRead (mem : ℕ → Byte) (failed count ppos : BitVec 64) : Reply :=
  if ppos &&& 0x7 ≠ 0 then ⟨BitVec.ofInt 64 (-EINVAL),ppos,[]⟩
  else
    let len := BitVec.ofNat 64 DATA_BUFFER_LEN
    let start := (ppos.sshiftRight 3).setWidth 32
    if start.signExtend 64 = len then ⟨0,ppos,[]⟩
    else if len < start.signExtend 64 ∨ count < 8 then ⟨BitVec.ofInt 64 (-EINVAL),ppos,[]⟩
    else
      let toCopy := ((len - start.signExtend 64) * 8).setWidth 32
      let _toCopy := if count < toCopy.signExtend 64 then count.setWidth 32 else toCopy
      -- the clamped length is overwritten, and the count is taken in words
      let toCopy := (count >>> 3).setWidth 32
      let delivered := (List.range (toCopy.signExtend 64 - failed).toNat).map mem
      let toCopy := toCopy - failed.setWidth 32
      ⟨toCopy.signExtend 64,ppos + toCopy.signExtend 64,delivered⟩

variable (mem : ℕ → Byte)

/-- A read whose copy succeeds in full. -/
def step (ppos count : BitVec 64) : BitVec 64 × Reply :=
  let r := breaderRead mem 0 count ppos
  (r.ppos,r)

/-- The first `n` bytes of the buffer. -/
def contents (n : ℕ) : List Byte := (List.range n).map mem

/-- How many bytes a read of a file of `DATA_BUFFER_SIZE` bytes gives. -/
def fileCount (ppos count : BitVec 64) : ℕ := min count.toNat (DATA_BUFFER_SIZE - ppos.toNat)

/-- What a read of that file does. -/
structure ReadsOnce (ppos count : BitVec 64) (r : Reply) : Prop where
  returns : r.ret.toNat = fileCount ppos count
  advances : r.ppos.toNat = ppos.toNat + fileCount ppos count
  aligned : r.ppos &&& 0x7 = 0
  delivers : r.delivered = (List.range' ppos.toNat (fileCount ppos count)).map mem

/-- Every read of the run is one of the file; what was delivered so far is always the buffer up to
the position, and all of it once a read returns zero. -/
structure ReadsAsFile (counts : List (BitVec 64)) : Prop where
  once : Admits (fun p c => (step mem p c).1) (fun p c => ReadsOnce mem p c (step mem p c).2) 0 counts
  soFar : ∀ n, (outputs (step mem) 0 (counts.take n)).flatMap Reply.delivered =
    contents mem (final (step mem) 0 (counts.take n)).toNat
  whole : ∀ n count, counts[n]? = some count →
    (step mem (final (step mem) 0 (counts.take n)) count).2.ret = 0 →
    (outputs (step mem) 0 (counts.take n)).flatMap Reply.delivered = contents mem DATA_BUFFER_SIZE

variable {mem}

lemma ReadsOnce.contents_step {ppos count : BitVec 64}
    (h : ReadsOnce mem ppos count (step mem ppos count).2) :
    contents mem (step mem ppos count).1.toNat =
      contents mem ppos.toNat ++ (step mem ppos count).2.delivered := by
  have hpos : (step mem ppos count).1.toNat = ppos.toNat + fileCount ppos count := h.advances
  rw [hpos,h.delivers]
  unfold contents
  rw [List.range_eq_range',List.range_eq_range',← List.map_append]
  congr 1
  rw [← List.range'_append_1,Nat.zero_add]

lemma ReadsOnce.le {ppos count : BitVec 64} (h : ReadsOnce mem ppos count (step mem ppos count).2)
    (hle : ppos.toNat ≤ DATA_BUFFER_SIZE) : (step mem ppos count).1.toNat ≤ DATA_BUFFER_SIZE := by
  have hpos : (step mem ppos count).1.toNat = ppos.toNat + fileCount ppos count := h.advances
  unfold fileCount at hpos
  omega

/-- Reads of the file deliver it from the front. -/
theorem readsAsFile_of_once {counts : List (BitVec 64)} (hpos : ∀ c ∈ counts, 0 < c.toNat)
    (h : Admits (fun p c => (step mem p c).1) (fun p c => ReadsOnce mem p c (step mem p c).2) 0
      counts) : ReadsAsFile mem counts := by
  have hsoFar : ∀ n, (outputs (step mem) 0 (counts.take n)).flatMap Reply.delivered =
      contents mem (final (step mem) 0 (counts.take n)).toNat := fun n => by
    rw [contents_final (fun p : BitVec 64 => contents mem p.toNat)
      (fun _ _ hr => ReadsOnce.contents_step hr) (h.take n)]
    rfl
  refine ⟨h,hsoFar,fun n count hcount hret => ?_⟩
  obtain ⟨hn,rfl⟩ := List.getElem?_eq_some_iff.mp hcount
  have hcut := (admits_iff_forall_cut _ _ _ _).mp h (counts.take n) counts[n] (counts.drop (n+1))
    (by rw [← List.drop_eq_getElem_cons hn,List.take_append_drop])
  have hle : (final (step mem) 0 (counts.take n)).toNat ≤ DATA_BUFFER_SIZE :=
    (h.take n).invariant (I := fun p : BitVec 64 => p.toNat ≤ DATA_BUFFER_SIZE)
      (fun p c hp hr => hr.le hp) (Nat.zero_le _)
  have hzero : fileCount (final (step mem) 0 (counts.take n)) counts[n] = 0 :=
    hcut.returns.symm.trans (congrArg BitVec.toNat hret)
  have hcountpos := hpos _ (List.getElem_mem hn)
  have hend : (final (step mem) 0 (counts.take n)).toNat = DATA_BUFFER_SIZE := by
    unfold fileCount at hzero
    omega
  rw [hsoFar,hend]

lemma readsOnce_end {ppos : BitVec 64} (hpos : ppos = BitVec.ofNat 64 DATA_BUFFER_SIZE)
    (count : BitVec 64) : ReadsOnce mem ppos count (step mem ppos count).2 := by
  have hstep : (step mem ppos count).2 = ⟨0,ppos,[]⟩ := by
    subst hpos
    rfl
  have hzero : fileCount ppos count = 0 := by
    rw [fileCount,hpos]
    exact Nat.min_eq_right (Nat.zero_le _)
  rw [hstep]
  refine ⟨by rw [hzero]; rfl,by rw [hzero]; rfl,by rw [hpos]; decide,by rw [hzero]; rfl⟩

lemma admits_end (counts : List (BitVec 64)) {ppos : BitVec 64}
    (hpos : ppos = BitVec.ofNat 64 DATA_BUFFER_SIZE) :
    Admits (fun p c => (step mem p c).1) (fun p c => ReadsOnce mem p c (step mem p c).2) ppos
      counts := by
  induction counts generalizing ppos with
  | nil => trivial
  | cons count counts ih =>
    refine ⟨readsOnce_end hpos count,ih ?_⟩
    subst hpos
    rfl

/-- The number of bytes that the first read copies, as the source computes it. -/
def firstCopy (count : BitVec 64) : BitVec 64 := ((count >>> 3).setWidth 32).signExtend 64

lemma step_zero (mem : ℕ → Byte) {count : BitVec 64} (hcount : 8 ≤ count.toNat) :
    (step mem 0 count).2 =
      ⟨firstCopy count,firstCopy count,(List.range (firstCopy count).toNat).map mem⟩ := by
  have hlt : ¬ count < 8 := by
    rw [BitVec.lt_def]
    exact not_lt.mpr hcount
  simp only [step,breaderRead]
  rw [if_neg (by decide),if_neg (by decide),if_neg (not_or.mpr ⟨by decide,hlt⟩)]
  simp [firstCopy]

/-- It is the length of the buffer for the counts of eight times that length, up to 35 bits. -/
lemma firstCopy_eq_iff {count : BitVec 64} (hcount : 0 < count.toNat) (hdvd : 8 ∣ count.toNat) :
    (firstCopy count).toNat = fileCount 0 count ↔ count.toNat % 2^35 = 2^25 := by
  obtain ⟨words,hwords⟩ := hdvd
  have hshift : ((count >>> 3).setWidth 32).toNat = words % 2^32 := by
    rw [BitVec.toNat_setWidth,BitVec.toNat_ushiftRight,Nat.shiftRight_eq_div_pow,hwords,
      Nat.mul_div_cancel_left _ (by decide)]
  have hsize : DATA_BUFFER_SIZE = 4194304 := by decide
  have hsign := BitVec.toNat_signExtend (v := 64) ((count >>> 3).setWidth 32)
  rw [BitVec.toNat_setWidth,BitVec.msb_eq_decide,hshift] at hsign
  simp only [decide_eq_true_eq] at hsign
  have hfile : fileCount 0 count = min (8*words) 4194304 := by
    rw [fileCount,hwords,hsize]
    rfl
  rw [firstCopy,hfile,hwords,hsign]
  -- a length with the sign bit set is longer than any count
  have hpos : 0 < words := by omega
  clear hsign hshift hfile hsize hwords hcount
  split_ifs <;> omega

lemma readsOnce_first (mem : ℕ → Byte) {count : BitVec 64} (hcount : 8 ≤ count.toNat)
    (hcopy : (firstCopy count).toNat = fileCount 0 count)
    (hsize : (firstCopy count).toNat = DATA_BUFFER_SIZE) :
    ReadsOnce mem 0 count (step mem 0 count).2 ∧
      (step mem 0 count).1 = BitVec.ofNat 64 DATA_BUFFER_SIZE := by
  have hcopy' : firstCopy count = BitVec.ofNat 64 DATA_BUFFER_SIZE := by
    apply BitVec.eq_of_toNat_eq
    rw [hsize]
    decide
  have hstep := step_zero mem hcount
  refine ⟨?_,(congrArg Reply.ppos hstep).trans hcopy'⟩
  rw [hstep]
  refine ⟨hcopy,?_,(congrArg (· &&& 0x7) hcopy').trans (by decide),?_⟩
  · exact hcopy.trans (Nat.zero_add _).symm
  · rw [hcopy,List.range_eq_range']
    rfl

/-- A run of reads is one of the file exactly if its first count is eight times the length of the
buffer, as the narrowed words see it: that read delivers everything, and the later ones nothing. -/
theorem reads_as_file_iff (mem : ℕ → Byte) {counts : List (BitVec 64)}
    (hcounts : ∀ c ∈ counts, 0 < c.toNat ∧ 8 ∣ c.toNat) :
    ReadsAsFile mem counts ↔ ∀ c ∈ counts.head?, c.toNat % 2^35 = 2^25 := by
  cases counts with
  | nil => exact iff_of_true (readsAsFile_of_once (by simp) trivial) (by simp)
  | cons count counts =>
    obtain ⟨hpos,hdvd⟩ := hcounts count List.mem_cons_self
    have hcount := Nat.le_of_dvd hpos hdvd
    simp only [List.head?_cons,Option.mem_some_iff,forall_eq']
    constructor
    · intro h
      have hret := h.once.1.returns
      rw [step_zero mem hcount] at hret
      exact (firstCopy_eq_iff hpos hdvd).mp hret
    · intro hmod
      have hcopy := (firstCopy_eq_iff hpos hdvd).mpr hmod
      have hfile : fileCount 0 count = DATA_BUFFER_SIZE := by
        have hsize : DATA_BUFFER_SIZE = 4194304 := by decide
        unfold fileCount
        rw [hsize]
        change min count.toNat 4194304 = 4194304
        omega
      obtain ⟨honce,hnext⟩ := readsOnce_first mem hcount hcopy (hcopy.trans hfile)
      exact readsAsFile_of_once (fun c hc => (hcounts c hc).1) ⟨honce,admits_end counts hnext⟩

/-- One read of 32 MiB, which copies the buffer, and another one. -/
theorem reads_as_file_eightfold :
    ReadsAsFile (fun i => BitVec.ofNat 8 i) [0x2000000,8] :=
  (reads_as_file_iff _ (by simp)).mpr (by simp)

/-- A read of one page returns 512, an eighth of what was asked for. -/
theorem first_read_short :
    (step (fun _ => 0) 0 4096).2.ret = 512 ∧ ¬ ReadsAsFile (fun _ => 0) [4096] := by
  have hret : (step (fun _ => 0) 0 4096).2.ret = 512 := by
    rw [step_zero _ (by decide)]
    decide
  refine ⟨hret,fun h => ?_⟩
  have hone := h.once.1.returns
  rw [hret] at hone
  exact absurd hone (by decide)

end PmuMin.Breader
