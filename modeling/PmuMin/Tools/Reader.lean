import PmuMin.Breader.Raw
import PmuMin.Library.Stdio
import Mathlib.Algebra.BigOperators.Group.List.Basic

/-! The benchmark readers: `main` of `reader.c`, and `seq_reader`, `raw_reader` and `mmap_reader`, which
sum up the chars that the devices of `breader` deliver. An `int` is a word of 32 bits whose additions
wrap, and a `char` is signed. -/
namespace PmuMin.Tools
open Breader Loop Stdio

abbrev Sum := BitVec 64

/-- What the readers ask of the system. -/
structure System where
  /-- whether there is a buffer of the size -/
  malloc : BitVec 64 → Bool
  /-- what the reads of a file deliver that `fopen` opens -/
  file : String → Device Byte
  /-- the descriptor that `open` returns -/
  fd : String → ℤ
  /-- `sysconf(_SC_PAGE_SIZE)` -/
  pageSize : ℕ
  /-- the memory at the address that `mmap` returns and beyond, as far as it can be read -/
  mmap : BitVec 32 → Option (ℕ → Option Byte)
  munmap : ℤ

inductive Output where
  | text (s : String)
  | sum (s : Sum)
  deriving DecidableEq, Repr

/-- How a program ends: with a status and what it printed, or by a fault. -/
inductive Ending where
  | exit (status : ℤ) (printed : Option Output)
  | killed
  deriving DecidableEq, Repr

def addChar (sum : Sum) (c : Byte) : Sum := sum + c.signExtend 64

section File
variable (dev : Device Byte) (stride : BitVec 32)

/-- The chars of the buffer after an `fread`, whose result becomes an `int`. -/
def addRead (sum : Sum) (buff : List Byte) : Sum :=
  (buff.take (BitVec.ofNat 32 buff.length).toInt.toNat).foldl addChar sum

/-- One pass of `while (times--)`. -/
def filePass (p : Sum × Stream) (fuel : ℕ) : Option (Sum × Stream) :=
  (readAll dev addRead (stride.signExtend 64).toNat p fuel).map fun p => (p.1,rewind p.2)

/-- The body that `seq_reader` and `raw_reader` share; the test `file < 0` of a pointer never holds. -/
def fileReader (sys : System) (path : String) (stride times : BitVec 32) (fuel : ℕ) :
    Option Ending :=
  if sys.malloc (stride.signExtend 64) then
    (repeatLoop (filePass (sys.file path) stride) times.toNat (0,fopen) fuel).map fun p =>
      .exit 0 (some (.sum p.1))
  else some (.exit (-1) none)

def seqReader (sys : System) : BitVec 32 → BitVec 32 → ℕ → Option Ending :=
  fileReader sys "/proc/breader_seq"

def rawReader (sys : System) : BitVec 32 → BitVec 32 → ℕ → Option Ending :=
  fileReader sys "/proc/breader_raw"

end File

section Mmap

def mmapSize (sys : System) : BitVec 32 :=
  (BitVec.ofNat 64 sys.pageSize <<< DATA_BUFFER_ORDER).setWidth 32

/-- The variables of the loops; the sum is gone once a read has faulted. -/
structure Walk where
  i : BitVec 32
  j : BitVec 32
  sum : Option Sum
  deriving DecidableEq, Repr

variable (size stride : BitVec 32) (rawBuff : ℕ → Option Byte)

def addBuff (sum : Option Sum) (j : ℕ) : Option Sum :=
  sum.bind fun sum => (rawBuff j).map (addChar sum)

def inside (w : Walk) : Bool := w.sum.isSome && w.i.slt size

/-- The inner loop, over the first chars of the mapping whatever `i` is, and `i += stride`. -/
def strideStep (w : Walk) : Walk :=
  let n := stride.toInt.toNat
  ⟨w.i+stride,BitVec.ofNat 32 n,(List.range n).foldl (addBuff rawBuff) w.sum⟩

/-- The loop for what is left: `sum += raw_buff[j]`. -/
def restStep (w : Walk) : Walk := ⟨w.i+1,w.j,addBuff rawBuff w.sum w.j.toNat⟩

/-- One pass of `while (times--)`. -/
def mmapPass (sum : Option Sum) (fuel : ℕ) : Option (Option Sum) :=
  (whileLoop (inside size) (strideStep stride rawBuff) fuel ⟨0,0,sum⟩).bind fun w =>
    (whileLoop (inside size) (restStep rawBuff) fuel w).map Walk.sum

/-- `munmap`, and the sum that is printed. -/
def finish (sys : System) : Option Sum → Ending
  | none => .killed
  | some sum => if sys.munmap ≠ 0 then .exit (-1) none else .exit 0 (some (.sum sum))

/-- `mmap_reader`. -/
def mmapReader (sys : System) (stride times : BitVec 32) (fuel : ℕ) : Option Ending :=
  if sys.fd "/proc/breader_mmap" < 0 then some (.exit (-1) none)
  else
    match sys.mmap (mmapSize sys) with
    | none => some (.exit (-1) none)
    | some rawBuff =>
      (repeatLoop (mmapPass (mmapSize sys) stride rawBuff) times.toNat (some 0) fuel).map (finish sys)

end Mmap

/-- A call of `strtol`: the number, whether `errno` is `ERANGE` after it, and where the text of the
number ends. -/
structure Strtol where
  value : BitVec 64
  erange : Bool
  endptr : ℕ
  endChar : Byte
  deriving DecidableEq, Repr

/-- The arguments, with the address of the first one. -/
structure Args where
  argc : ℤ
  name : String
  argv1 : ℕ
  mode : Strtol
  times : Strtol
  stride : Strtol

/-- The check after each call of `strtol`; the address is that of the first argument every time. -/
def notNumber (a : Args) (r : Strtol) : Bool := r.erange || r.endChar != 0 || a.argv1 == r.endptr

/-- `main` up to its `switch`: the mode, the times and the stride, or how it ends. -/
def checkArgs (a : Args) : Except Ending (BitVec 32 × BitVec 32 × BitVec 32) :=
  let refuse (s : String) : Ending := .exit (-1) (some (.text s))
  if a.argc ≠ 4 then .error (refuse ("Usage: " ++ a.name ++ " <mode> <times> <stride>\n"))
  else if notNumber a a.mode then .error (.exit (-1) none)
  else
    let mode : BitVec 32 := a.mode.value.setWidth 32
    if mode.slt 0 || (2 : BitVec 32).slt mode then
      .error (refuse "Mode must be in the range [0:2]\n")
    else if notNumber a a.times then .error (.exit (-1) none)
    else
      let times : BitVec 32 := a.times.value.setWidth 32
      if times.slt 1 then .error (refuse "Times must be at least 1\n")
      else if notNumber a a.stride then .error (.exit (-1) none)
      else
        let stride : BitVec 32 := a.stride.value.setWidth 32
        if stride &&& 0x7 ≠ 0 then .error (refuse "Stride must be a multiple of 8\n")
        else .ok (mode,times,stride)

/-- The `switch` of `main`. -/
def select (sys : System) (mode times stride : BitVec 32) : ℕ → Option Ending :=
  match mode.toNat with
  | 0 => seqReader sys stride times
  | 1 => rawReader sys stride times
  | 2 => mmapReader sys stride times
  | _ => fun _ => some (.exit (-1) (some (.text "Impossible state\n")))

/-- `main` of `reader.c`. -/
def main (sys : System) (a : Args) (fuel : ℕ) : Option Ending :=
  match checkArgs a with
  | .error e => some e
  | .ok (mode,times,stride) => select sys mode times stride fuel

/-- What the checks let through. -/
structure Accepted (mode times stride : BitVec 32) : Prop where
  mode : mode.toNat ≤ 2
  times : 1 ≤ times.toInt
  stride : stride &&& 0x7 = 0

lemma toNat_le_two {mode : BitVec 32} (h : ¬ (mode.slt 0 || (2 : BitVec 32).slt mode) = true) :
    mode.toNat ≤ 2 := by
  simp only [Bool.or_eq_true,BitVec.slt_iff_toInt_lt,not_or,not_lt] at h
  obtain ⟨hnonneg,hle⟩ := h
  have hmode := BitVec.toInt_eq_toNat_cond mode
  change 0 ≤ mode.toInt at hnonneg
  change mode.toInt ≤ 2 at hle
  split at hmode <;> omega

lemma accepted_of_checkArgs {a : Args} {mode times stride : BitVec 32}
    (h : checkArgs a = .ok (mode,times,stride)) : Accepted mode times stride := by
  unfold checkArgs at h
  dsimp only at h
  split_ifs at h with hargc hmodeNumber hmode htimesNumber htimes hstrideNumber hstride
  -- every check but the last branch refuses
  all_goals cases h
  refine ⟨toNat_le_two hmode,?_,not_not.mp hstride⟩
  rw [BitVec.slt_iff_toInt_lt,not_lt] at htimes
  exact htimes

/-- A positive `int`, as a number. -/
lemma toNat_of_pos {stride : BitVec 32} (hstride : 0 < stride.toInt) :
    stride.toInt.toNat = stride.toNat ∧ 0 < stride.toNat ∧ stride.toNat < 2^31 := by
  have hcond := BitVec.toInt_eq_toNat_cond stride
  split at hcond <;> omega

/-! A reader's passes: each begins at the front of its file. -/

section File
variable {dev : Device Byte} {stride : BitVec 32}

lemma fileReader_eq {sys : System} (h : sys.malloc (stride.signExtend 64) = true) (path : String)
    (times : BitVec 32) : fileReader sys path stride times = fun fuel =>
      (repeatLoop (filePass (sys.file path) stride) times.toNat (0,fopen) fuel).map fun p =>
        .exit 0 (some (.sum p.1)) := by
  funext fuel
  rw [fileReader,if_pos h]

/-- The stream after so many rewinds. -/
def front (pass : ℕ) : Stream := ⟨pass,0,false,false⟩

lemma steady_filePass (p : Sum × Stream) : Steady (filePass dev stride p) :=
  (steady_readAll dev addRead _ p).map _

lemma front_of_ends_filePass {p q : Sum × Stream} {pass : ℕ} (hp : p.2 = front pass)
    (h : Ends (filePass dev stride p) q) : q.2 = front (pass+1) := by
  obtain ⟨r,hr,rfl⟩ := ends_map.mp h
  have hrewinds := rewinds_of_ends_readAll hr
  rw [hp] at hrewinds
  exact congrArg (fun rewinds => (⟨rewinds+1,0,false,false⟩ : Stream)) hrewinds

lemma toNat_signExtend_ne_zero : (stride.signExtend 64).toNat ≠ 0 ↔ stride ≠ 0 := by
  rw [ne_eq,ne_eq,not_iff_not]
  constructor
  · intro h
    have hzero : stride.signExtend 64 = 0 := BitVec.eq_of_toNat_eq h
    apply BitVec.eq_of_toInt_eq
    rw [← BitVec.toInt_signExtend_of_le (v := 64) (by decide : 32 ≤ 64),hzero]
    rfl
  · rintro rfl
    rfl

/-- A pass ends exactly if something is read and the device comes to its end in it. -/
lemma exists_ends_filePass_iff {p : Sum × Stream} {pass : ℕ} (hp : p.2 = front pass) :
    (∃ q, Ends (filePass dev stride p) q) ↔ stride ≠ 0 ∧ ∃ a, dev pass a = .eof := by
  have hread : (∃ r, Ends (readAll dev addRead (stride.signExtend 64).toNat p) r) ↔
      (stride.signExtend 64).toNat ≠ 0 ∧ ∃ a, dev p.2.rewinds a = .eof :=
    exists_ends_readAll_iff (by rw [hp]; rfl) (by rw [hp]; rfl)
  rw [toNat_signExtend_ne_zero,hp] at hread
  exact exists_ends_map.trans hread

theorem exists_ends_filePasses_iff (sum : Sum) (times : ℕ) :
    (∃ q, Ends (repeatLoop (filePass dev stride) times (sum,fopen)) q) ↔
      ∀ pass < times, stride ≠ 0 ∧ ∃ a, dev pass a = .eof := by
  have h : (∃ q, Ends (repeatLoop (filePass dev stride) times (sum,fopen)) q) ↔
      ∀ pass < times, stride ≠ 0 ∧ ∃ a, dev (0+pass) a = .eof :=
    exists_ends_repeatLoop_iff steady_filePass (I := fun pass p => p.2 = front pass)
      (C := fun pass => stride ≠ 0 ∧ ∃ a, dev pass a = .eof)
      (fun _ _ _ hp hq => front_of_ends_filePass hp hq)
      (fun _ _ hp => exists_ends_filePass_iff hp) rfl
  simpa only [Nat.zero_add] using h

end File

section Mmap
/-- The mapping for pages of up to 1 MiB. -/
lemma mmapSize_toInt {sys : System} (hpos : 0 < sys.pageSize) (hle : sys.pageSize ≤ 2^20) :
    (mmapSize sys).toInt = (sys.pageSize*2^10 : ℕ) := by
  have hsize : (mmapSize sys).toNat = sys.pageSize*2^10 := by
    rw [mmapSize,BitVec.toNat_setWidth,BitVec.toNat_shiftLeft,BitVec.toNat_ofNat,
      Nat.shiftLeft_eq]
    change sys.pageSize % 2^64 * 2^10 % 2^64 % 2^32 = _
    omega
  rw [BitVec.toInt_eq_toNat_of_lt (by rw [hsize]; omega),hsize]

variable {size stride : BitVec 32} {rawBuff : ℕ → Option Byte} {sum r : Option Sum}

lemma mmapReader_eq {sys : System} (hfd : ¬ sys.fd "/proc/breader_mmap" < 0)
    (hmap : sys.mmap (mmapSize sys) = some rawBuff) (times : BitVec 32) :
    mmapReader sys stride times = fun fuel =>
      (repeatLoop (mmapPass (mmapSize sys) stride rawBuff) times.toNat (some 0) fuel).map
        (finish sys) := by
  funext fuel
  rw [mmapReader,if_neg hfd,hmap]

lemma steady_mmapPass (sum : Option Sum) : Steady (mmapPass size stride rawBuff sum) :=
  (steady_whileLoop _ _ _).bind fun _ => (steady_whileLoop _ _ _).map _

/-- The second loop of a pass has nothing to do. -/
lemma ends_mmapPass_iff :
    Ends (mmapPass size stride rawBuff sum) r ↔ ∃ w,
      Ends (fun fuel => whileLoop (inside size) (strideStep stride rawBuff) fuel ⟨0,0,sum⟩) w ∧
        w.sum = r := by
  refine (ends_bind (steady_whileLoop _ _ _) fun _ => (steady_whileLoop _ _ _).map _).trans ?_
  refine exists_congr fun w => and_congr_right fun hw => ?_
  obtain ⟨-,hend⟩ := hw.whileLoop_inv (I := fun _ => True) (fun _ _ _ => trivial) trivial
  rw [ends_map]
  simp only [ends_whileLoop_of_false hend,exists_eq_left']

/-- After a fault there is no pass. -/
lemma ends_mmapPass_none : Ends (mmapPass size stride rawBuff none) r ↔ r = none := by
  rw [ends_mmapPass_iff]
  simp only [ends_whileLoop_of_false (show inside size ⟨0,0,none⟩ = false from rfl),
    exists_eq_left']
  exact eq_comm

lemma iterate_strideStep_i (k : ℕ) :
    ((strideStep stride rawBuff)^[k] ⟨0,0,sum⟩).i = BitVec.ofNat 32 (k*stride.toNat) := by
  induction k with
  | zero => rw [Nat.zero_mul]; rfl
  | succ k ih =>
    rw [Function.iterate_succ_apply',strideStep,ih,Nat.succ_mul,BitVec.ofNat_add,
      BitVec.ofNat_toNat,BitVec.setWidth_eq]

end Mmap

/-! The chars of a list, summed up. -/

def charSum (l : List Byte) : Sum := (l.map (BitVec.signExtend 64)).sum

lemma charSum_append (l l' : List Byte) : charSum (l ++ l') = charSum l + charSum l' := by
  rw [charSum,List.map_append,List.sum_append]
  rfl

lemma foldl_addChar (l : List Byte) (sum : Sum) : l.foldl addChar sum = sum + charSum l := by
  induction l generalizing sum with
  | nil => exact (add_zero sum).symm
  | cons c l ih =>
    rw [List.foldl_cons,ih,addChar,add_assoc,charSum,charSum,List.map_cons,List.sum_cons]

/-- A chunk no longer than an `int` counts is added completely. -/
lemma addRead_eq {buff : List Byte} (h : buff.length < 2^31) (sum : Sum) :
    addRead sum buff = sum + charSum buff := by
  have hlen : (BitVec.ofNat 32 buff.length).toNat = buff.length := by
    rw [BitVec.toNat_ofNat]
    omega
  rw [addRead,BitVec.toInt_eq_toNat_of_lt (by omega),hlen,Int.toNat_natCast,List.take_length,
    foldl_addChar]

/-- However the chars are cut into chunks. -/
lemma foldl_addRead {chunks : List (List Byte)} (h : ∀ c ∈ chunks, c.length < 2^31) (sum : Sum) :
    chunks.foldl addRead sum = sum + charSum chunks.flatten := by
  induction chunks generalizing sum with
  | nil => exact (add_zero sum).symm
  | cons c chunks ih =>
    obtain ⟨hc,hchunks⟩ := List.forall_mem_cons.mp h
    rw [List.foldl_cons,ih hchunks,addRead_eq hc,List.flatten_cons,charSum_append,add_assoc]

end PmuMin.Tools
