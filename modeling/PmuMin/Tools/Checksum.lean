import PmuMin.Tools.Reader

/-! The checksums that `raw_reader` and `mmap_reader` print. -/
namespace PmuMin.Tools
open Breader Loop Stdio

/-- The raw file delivers the bytes `b` in every pass and the mapping shows them; all calls succeed. -/
structure Shows (sys : System) (b : List Byte) (stride : BitVec 32) (rawBuff : ℕ → Option Byte) :
    Prop where
  malloc : sys.malloc (stride.signExtend 64) = true
  file : sys.file "/proc/breader_raw" = fun _ => file b
  opens : ¬ sys.fd "/proc/breader_mmap" < 0
  maps : sys.mmap (mmapSize sys) = some rawBuff
  bytes : ∀ i < b.length, rawBuff i = b[i]?
  unmaps : sys.munmap = 0

section Raw
variable {b : List Byte} {stride : BitVec 32}

lemma toNat_signExtend_of_pos (hstride : 0 < stride.toInt) :
    (stride.signExtend 64).toNat = stride.toNat := by
  obtain ⟨-,-,hlt⟩ := toNat_of_pos hstride
  have hmsb : stride.msb = false := by
    rw [BitVec.msb_eq_false_iff_two_mul_lt]
    omega
  rw [BitVec.signExtend_eq_setWidth_of_msb_false hmsb,BitVec.toNat_setWidth]
  omega

/-- A pass over a file adds each of its chars once. -/
lemma sum_of_ends_filePass {p q : Sum × Stream} {pass : ℕ} (hstride : 0 < stride.toInt)
    (hp : p.2 = front pass) (h : Ends (filePass (fun _ => file b) stride p) q) :
    q.1 = p.1 + charSum b := by
  obtain ⟨r,hr,rfl⟩ := ends_map.mp h
  obtain ⟨-,-,hlt⟩ := toNat_of_pos hstride
  obtain ⟨chunks,hflat,hlen,hvalue⟩ := readAll_file (by rw [hp]; rfl) (by rw [hp]; rfl) rfl hr
  rw [toNat_signExtend_of_pos hstride] at hlen
  rw [← hflat]
  exact hvalue.trans (foldl_addRead (fun c hc => (hlen c hc).trans_lt hlt) p.1)

/-- So every pass adds the file's sum once more. -/
lemma ends_filePasses (hstride : 0 < stride.toInt) (times : ℕ) :
    ∃ s, Ends (repeatLoop (filePass (fun _ => file b) stride) times (0,fopen))
      (times • charSum b,s) := by
  have hzero : stride ≠ 0 := by
    rintro rfl
    exact absurd hstride (by decide)
  obtain ⟨q,hq⟩ := (exists_ends_filePasses_iff 0 times).mpr fun _ _ =>
    ⟨hzero,b.length,file_eq_eof_iff.mpr le_rfl⟩
  have hsum : q.2 = front (0+times) ∧ q.1 = (0+times) • charSum b := by
    apply Ends.repeatLoop_inv steady_filePass
      (I := fun pass p => p.2 = front pass ∧ p.1 = pass • charSum b) _ ⟨rfl,(zero_nsmul _).symm⟩ hq
    rintro pass p r ⟨hp,hsum⟩ hr
    refine ⟨front_of_ends_filePass hp hr,?_⟩
    rw [sum_of_ends_filePass hstride hp hr,hsum,succ_nsmul]
  rw [Nat.zero_add] at hsum
  refine ⟨q.2,?_⟩
  rw [← hsum.2]
  exact hq

end Raw

section Mmap
variable {size stride : BitVec 32} {rawBuff : ℕ → Option Byte}

/-- The first chars of the mapping, if they all can be read. -/
def firstChars (rawBuff : ℕ → Option Byte) (n : ℕ) : Option (List Byte) :=
  (List.range n).mapM rawBuff

lemma foldl_addBuff (l : List ℕ) (sum : Option Sum) :
    l.foldl (addBuff rawBuff) sum =
      sum.bind fun sum => (l.mapM rawBuff).map fun row => sum + charSum row := by
  induction l generalizing sum with
  | nil =>
    rw [List.mapM_nil]
    cases sum with
    | none => rfl
    | some sum => exact congrArg some (add_zero sum).symm
  | cons i l ih =>
    rw [List.foldl_cons,ih,List.mapM_cons,addBuff]
    cases sum with
    | none => rfl
    | some sum =>
      cases hchar : rawBuff i with
      | none => rfl
      | some c =>
        cases hrow : l.mapM rawBuff with
        | none => simp
        | some row => simp [addChar,charSum,add_assoc]

/-- The number of strides that it takes to get past the end. -/
def strides (len n : ℕ) : ℕ := (len + n - 1) / n

lemma lt_strides_iff {len n j : ℕ} (hn : 0 < n) : j < strides len n ↔ j*n < len := by
  rw [strides,← Nat.succ_le_iff,Nat.le_div_iff_mul_le hn,Nat.succ_mul]
  omega

/-- No `int` overflows on the way, for a mapping of up to 1 GiB. -/
lemma strides_mul_lt {len n : ℕ} (hn : 0 < n) (hn' : n < 2^31) (hlen : len ≤ 2^30) :
    strides len n * n < 2^31 := by
  rcases hk : strides len n with _ | _ | k
  · omega
  · omega
  · have hbefore : (k+1)*n < len := (lt_strides_iff hn).mp (by omega)
    have hone : n ≤ (k+1)*n := Nat.le_mul_of_pos_left n (Nat.succ_pos k)
    rw [Nat.succ_mul]
    omega

lemma toInt_ofNat {n : ℕ} (h : n < 2^31) : (BitVec.ofNat 32 n).toInt = n := by
  have hnat : (BitVec.ofNat 32 n).toNat = n := by
    rw [BitVec.toNat_ofNat]
    omega
  rw [BitVec.toInt_eq_toNat_of_lt (by omega),hnat]

variable {len : ℕ} {row : List Byte}

/-- The sum after so many strides. -/
lemma iterate_strideStep_row (hstride : 0 < stride.toInt)
    (hrow : firstChars rawBuff stride.toNat = some row) (sum : Sum) (k : ℕ) :
    ((strideStep stride rawBuff)^[k] ⟨0,0,some sum⟩).sum = some (sum + k • charSum row) := by
  obtain ⟨hn,-,-⟩ := toNat_of_pos hstride
  induction k with
  | zero => exact congrArg some (by rw [zero_nsmul,add_zero])
  | succ k ih =>
    rw [Function.iterate_succ_apply',strideStep]
    dsimp only
    rw [ih,hn,foldl_addBuff,← firstChars,hrow,succ_nsmul,← add_assoc]
    rfl

/-- A pass adds the first chars once for every stride. -/
lemma ends_mmapPass_row (hsize : size.toInt = len) (hlen : len ≤ 2^30) (hstride : 0 < stride.toInt)
    (hrow : firstChars rawBuff stride.toNat = some row) (sum : Sum) :
    Ends (mmapPass size stride rawBuff (some sum))
      (some (sum + strides len stride.toNat • charSum row)) := by
  obtain ⟨-,hn,hlt⟩ := toNat_of_pos hstride
  have hend := strides_mul_lt hn hlt hlen
  have hinside : ∀ j : ℕ, j*stride.toNat < 2^31 →
      ((BitVec.ofNat 32 (j*stride.toNat)).slt size = true ↔ j < strides len stride.toNat) := by
    intro j hj
    rw [BitVec.slt_iff_toInt_lt,toInt_ofNat hj,hsize,Int.ofNat_lt,lt_strides_iff hn]
  refine ends_mmapPass_iff.mpr ⟨_,ends_whileLoop_iff.mpr
    ⟨strides len stride.toNat,fun j hj => ?_,?_,rfl⟩,iterate_strideStep_row hstride hrow sum _⟩
  · have hlt := (Nat.mul_le_mul_right stride.toNat (Nat.le_of_lt hj)).trans_lt hend
    rw [inside,iterate_strideStep_row hstride hrow,iterate_strideStep_i,(hinside j hlt).mpr hj]
    rfl
  · have hout := mt (hinside _ hend).mp (Nat.lt_irrefl _)
    rw [inside,iterate_strideStep_i,eq_false_of_ne_true hout,Bool.and_false]

/-- If they cannot all be read, its first stride faults. -/
lemma ends_mmapPass_fault (hpos : 0 < size.toInt) (hstride : 0 < stride.toInt)
    (hrow : firstChars rawBuff stride.toNat = none) (sum : Sum) :
    Ends (mmapPass size stride rawBuff (some sum)) none := by
  have hstep : (strideStep stride rawBuff ⟨0,0,some sum⟩).sum = none := by
    rw [strideStep]
    dsimp only
    rw [(toNat_of_pos hstride).1,foldl_addBuff,← firstChars,hrow]
    rfl
  refine ends_mmapPass_iff.mpr ⟨_,ends_whileLoop_iff.mpr ⟨1,fun j hj => ?_,?_,rfl⟩,hstep⟩
  · rw [Nat.lt_one_iff.mp hj]
    exact BitVec.slt_iff_toInt_lt.mpr hpos
  · rw [inside,Function.iterate_one,hstep]
    rfl

lemma ends_mmapPasses_row (hsize : size.toInt = len) (hlen : len ≤ 2^30)
    (hstride : 0 < stride.toInt) (hrow : firstChars rawBuff stride.toNat = some row) (times : ℕ)
    (sum : Sum) :
    Ends (repeatLoop (mmapPass size stride rawBuff) times (some sum))
      (some (sum + (times*strides len stride.toNat) • charSum row)) := by
  induction times generalizing sum with
  | zero => exact ⟨0,by rw [Nat.zero_mul,zero_nsmul,add_zero]; rfl⟩
  | succ times ih =>
    refine (ends_repeatLoop_succ steady_mmapPass).mpr
      ⟨_,ends_mmapPass_row hsize hlen hstride hrow sum,?_⟩
    rw [Nat.succ_mul,Nat.add_comm,add_nsmul,← add_assoc]
    exact ih _

lemma ends_mmapPasses_fault (hpos : 0 < size.toInt) (hstride : 0 < stride.toInt)
    (hrow : firstChars rawBuff stride.toNat = none) {times : ℕ} (htimes : times ≠ 0) (sum : Sum) :
    Ends (repeatLoop (mmapPass size stride rawBuff) times (some sum)) none := by
  have hkilled : ∀ times, Ends (repeatLoop (mmapPass size stride rawBuff) times none) none := by
    intro times
    induction times with
    | zero => exact ⟨0,rfl⟩
    | succ times ih =>
      exact (ends_repeatLoop_succ steady_mmapPass).mpr ⟨none,ends_mmapPass_none.mpr rfl,ih⟩
  obtain ⟨rest,rfl⟩ := Nat.exists_eq_succ_of_ne_zero htimes
  exact (ends_repeatLoop_succ steady_mmapPass).mpr
    ⟨none,ends_mmapPass_fault hpos hstride hrow sum,hkilled rest⟩

end Mmap

lemma mapM_range_eq {α : Type*} {f : ℕ → Option α} {l : List α} {n : ℕ} (hn : n ≤ l.length)
    (h : ∀ i < n, f i = l[i]?) : (List.range n).mapM f = some (l.take n) := by
  induction n with
  | zero => rfl
  | succ n ih =>
    have hlast : l[n]? = some l[n] := List.getElem?_eq_getElem hn
    rw [List.range_succ,List.mapM_append,ih (Nat.le_of_succ_le hn) fun i hi => h i (by omega),
      List.take_add_one,List.mapM_cons,h n (Nat.lt_succ_self n),hlast]
    rfl

section Readers
variable {sys : System} {b : List Byte} {stride times : BitVec 32} {rawBuff : ℕ → Option Byte}

/-- Within the mapping the chars of the first stride are the first bytes. -/
lemma Shows.firstChars_eq (h : Shows sys b stride rawBuff) (hle : stride.toNat ≤ b.length) :
    firstChars rawBuff stride.toNat = some (b.take stride.toNat) :=
  mapM_range_eq hle fun i hi => h.bytes i (Nat.lt_of_lt_of_le hi hle)

lemma Shows.ends_rawReader (h : Shows sys b stride rawBuff) (hstride : 0 < stride.toInt)
    (times : BitVec 32) :
    Ends (rawReader sys stride times) (.exit 0 (some (.sum (times.toNat • charSum b)))) := by
  obtain ⟨s,hs⟩ := ends_filePasses (b := b) hstride times.toNat
  rw [rawReader,fileReader_eq h.malloc,h.file]
  exact ends_map.mpr ⟨_,hs,rfl⟩

lemma Shows.ends_mmapReader_iff (h : Shows sys b stride rawBuff) {sum : Option Sum} {v : Sum}
    (hpasses : Ends (repeatLoop (mmapPass (mmapSize sys) stride rawBuff) times.toNat (some 0)) sum) :
    Ends (mmapReader sys stride times) (.exit 0 (some (.sum v))) ↔ sum = some v := by
  have hends : Ends (mmapReader sys stride times) (finish sys sum) := by
    rw [mmapReader_eq h.opens h.maps]
    exact ends_map.mpr ⟨sum,hpasses,rfl⟩
  have hsteady : Steady (mmapReader sys stride times) := by
    rw [mmapReader_eq h.opens h.maps]
    exact (steady_repeatLoop steady_mmapPass _ _).map _
  rw [hsteady.ends_iff hends]
  cases sum with
  | none => simp [finish]
  | some sum => simp [finish,h.unmaps]

/-- What the raw reader prints is the sum of the bytes, once for every pass. The mapped reader prints
it exactly if the chars of the first stride can be read, which are the first bytes while the stride
fits, and their sum, once for every stride of every pass, is the same. -/
theorem checksums_agree_iff (h : Shows sys b stride rawBuff) (hpos : 0 < sys.pageSize)
    (hle : sys.pageSize ≤ 2^20) (hlen : b.length = (mmapSize sys).toInt)
    (hstride : 0 < stride.toInt) (htimes : 1 ≤ times.toInt) :
    let v := times.toNat • charSum b
    Ends (rawReader sys stride times) (.exit 0 (some (.sum v))) ∧
      (Ends (mmapReader sys stride times) (.exit 0 (some (.sum v))) ↔
        ∃ row, firstChars rawBuff stride.toNat = some row ∧
          (times.toNat * strides b.length stride.toNat) • charSum row = v) ∧
      (stride.toNat ≤ b.length → firstChars rawBuff stride.toNat = some (b.take stride.toNat)) := by
  intro v
  have hsize := mmapSize_toInt hpos hle
  have hnat : times.toNat ≠ 0 := (toNat_of_pos htimes).2.1.ne'
  refine ⟨h.ends_rawReader hstride times,?_,h.firstChars_eq⟩
  cases hrow : firstChars rawBuff stride.toNat with
  | none =>
    rw [h.ends_mmapReader_iff (ends_mmapPasses_fault (by omega) hstride hrow hnat 0)]
    simp
  | some row =>
    rw [h.ends_mmapReader_iff
      (ends_mmapPasses_row hlen.symm (by omega) hstride hrow times.toNat 0)]
    simp

end Readers

/-- A system with pages of 4 KiB whose file and mapping hold the bytes. -/
def showing (b : List Byte) : System :=
  ⟨fun size => !size.msb,fun _ _ => file b,fun _ => 3,4096,fun _ => some fun i => b[i]?,0⟩

lemma shows_showing {stride : BitVec 32} (hmalloc : (stride.signExtend 64).msb = false)
    (b : List Byte) : Shows (showing b) b stride fun i => b[i]? :=
  ⟨congrArg (!·) hmalloc,rfl,(by decide : ¬ (3 : ℤ) < 0),rfl,fun _ _ => rfl,rfl⟩

/-- With a stride as long as the mapping, both read the bytes as they are. -/
theorem checksums_agree_whole :
    let b : List Byte := List.replicate 0x400000 7
    let v := 2 • charSum b
    Ends (rawReader (showing b) 0x400000 2) (.exit 0 (some (.sum v))) ∧
      Ends (mmapReader (showing b) 0x400000 2) (.exit 0 (some (.sum v))) := by
  intro b v
  have hlen : b.length = 0x400000 := List.length_replicate
  have hshows : Shows (showing b) b 0x400000 fun i => b[i]? := shows_showing (by decide) b
  have htimes : 1 ≤ (2 : BitVec 32).toInt := by decide
  obtain ⟨hraw,hmmap,hrow⟩ := checksums_agree_iff hshows (by decide) (by decide)
    (by rw [hlen]; decide) (by decide) htimes
  refine ⟨hraw,hmmap.mpr ⟨_,hrow (by rw [hlen]; decide),?_⟩⟩
  rw [hlen,List.take_of_length_le (by rw [hlen]; decide)]
  rfl

/-- The bytes of so many words that are 1, and of a last one that is 0. -/
def wordBytes (ones : ℕ) : List Byte :=
  (List.replicate ones [1,0,0,0,0,0,0,0]).flatten ++ [0,0,0,0,0,0,0,0]

lemma length_wordBytes (ones : ℕ) : (wordBytes ones).length = 8*(ones+1) := by
  simp [wordBytes]
  omega

lemma charSum_wordBytes (ones : ℕ) : charSum (wordBytes ones) = ones • (1 : Sum) := by
  have hones : charSum (List.replicate ones ([1,0,0,0,0,0,0,0] : List Byte)).flatten =
      ones • (1 : Sum) := by
    induction ones with
    | zero => rfl
    | succ ones ih =>
      rw [List.replicate_succ,List.flatten_cons,charSum_append,ih,succ_nsmul']
      rfl
  rw [wordBytes,charSum_append,hones]
  exact add_zero _

/-- Over the buffer as the module fills it the raw reader prints 524287, and the mapped one, with a
stride of 8, 524288: the first word once for each of the 524288. -/
theorem checksums_differ :
    let sys := showing (wordBytes 524287)
    Ends (rawReader sys 8 1) (.exit 0 (some (.sum 524287))) ∧
      Ends (mmapReader sys 8 1) (.exit 0 (some (.sum 524288))) ∧
      ¬ Ends (mmapReader sys 8 1) (.exit 0 (some (.sum 524287))) := by
  intro sys
  have hshows : Shows sys (wordBytes 524287) 8 fun i => (wordBytes 524287)[i]? :=
    shows_showing (by decide) _
  have hlen : (wordBytes 524287).length = 0x400000 := length_wordBytes _
  have hstride : 0 < (8 : BitVec 32).toInt := by decide
  have hrow : firstChars (fun i => (wordBytes 524287)[i]?) (8 : BitVec 32).toNat =
      some [1,0,0,0,0,0,0,0] := by
    rw [hshows.firstChars_eq (by rw [hlen]; decide)]
    rfl
  have hsize : (mmapSize sys).toInt = (0x400000 : ℕ) := by decide
  have hpasses : Ends (repeatLoop (mmapPass (mmapSize sys) 8 fun i => (wordBytes 524287)[i]?)
      (1 : BitVec 32).toNat (some 0)) (some 524288) :=
    ends_mmapPasses_row hsize (by decide) hstride hrow 1 0
  refine ⟨?_,(hshows.ends_mmapReader_iff hpasses).mpr rfl,fun h => ?_⟩
  · have hraw := hshows.ends_rawReader hstride 1
    rw [charSum_wordBytes] at hraw
    exact hraw
  · have hsum := (hshows.ends_mmapReader_iff hpasses).mp h
    exact absurd hsum (by decide)

end PmuMin.Tools
