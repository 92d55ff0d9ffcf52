import PmuMin.Breader.Raw
import PmuMin.Library.Paging
import PmuMin.Library.Update

/-! The mapping of `breader_mmap.c`, whose pages `vm_fault` supplies, and the loop of `mreader.c` that
sums it up. An address is a number, `P` the size of a page, and a `struct page` the number of its
frame. -/
namespace PmuMin.Breader
open Machine Client Paging
open scoped BigOperators

/-- `struct vm_fault`: the page offset of the access and the page that the handler gives back. -/
structure VmFault where
  pgoff : ℕ
  page : Option ℕ
  deriving DecidableEq, Repr

def virtToPage (P addr : ℕ) : ℕ := addr / P

def getPage (page : ℕ) (refs : ℕ → ℕ) : ℕ → ℕ := Update.tally refs (some page)

section
variable (P dataBuffer : ℕ)

/-- `vm_fault`, with the references on the frames. -/
def vmFault (vmf : VmFault) (refs : ℕ → ℕ) : ℤ × VmFault × (ℕ → ℕ) :=
  if dataBuffer ≠ 0 then
    let page := virtToPage P dataBuffer
    (0,{ vmf with page := some page },getPage page refs)
  else (0,vmf,refs)

/-- What the kernel installs at a page offset. -/
def supplied (p : ℕ) (refs : ℕ → ℕ) : Option ℕ × (ℕ → ℕ) :=
  (vmFault P dataBuffer ⟨p,none⟩ refs).2.map VmFault.page id

/-- The length of the buffer in words. -/
def bufferLen : ℕ := (P <<< DATA_BUFFER_ORDER) / 8

/-- `u64_in_mmap` of `mreader.c`: a `long` that is cut to an `int`. -/
def u64InMmap : BitVec 32 :=
  ((BitVec.ofNat 64 P <<< DATA_BUFFER_ORDER).sshiftRight 3).setWidth 32

variable (mem : ℕ → Word)

/-- The loop of `mreader.c` with `n` iterations to go; `none` is the signal for a page that the
handler did not supply. -/
def mreaderLoop : ℕ → ℕ → Word → Mapping ℕ (ℕ → ℕ) → Option Word
  | 0, _, sum, _ => some sum
  | n+1, i, sum, m =>
    let m := touch (supplied P dataBuffer) m (8*i/P)
    match m.pte (8*i/P) with
    | none => none
    | some page => mreaderLoop n (i+1) (sum + mem (page*P + 8*i%P)) m

/-- The sum that `mreader` prints over a mapping of which some pages were touched before. -/
def mreaderSum (touches : List ℕ) : Option Word :=
  mreaderLoop P dataBuffer mem (u64InMmap P).toInt.toNat 0 0
    (touches.foldl (touch (supplied P dataBuffer)) (fresh fun _ => 0))

/-- The sum of the words of the buffer. -/
def bufferSum : Word := ∑ i ∈ Finset.range (bufferLen P), mem (dataBuffer + 8*i)

/-- The sum of the words of its first page. -/
def firstPageSum : Word := ∑ i ∈ Finset.range (P/8), mem (dataBuffer + 8*i)

/-- The page at an offset is the buffer's own one, and there is none beyond the buffer. -/
def RightPage (p : ℕ) : Prop :=
  ∀ refs, (supplied P dataBuffer p refs).1 =
    if p < 2^DATA_BUFFER_ORDER then some (virtToPage P dataBuffer + p) else none

/-- The mapping shows the buffer. -/
structure ShowsBuffer : Prop where
  pages : ∀ p, RightPage P dataBuffer p
  sum : ∀ touches, mreaderSum P dataBuffer mem touches = some (bufferSum P dataBuffer mem)

end

variable {P dataBuffer : ℕ} {mem : ℕ → Word}

lemma supplied_eq (hbuf : dataBuffer ≠ 0) (p : ℕ) (refs : ℕ → ℕ) :
    supplied P dataBuffer p refs =
      (some (virtToPage P dataBuffer),getPage (virtToPage P dataBuffer) refs) := by
  rw [supplied,vmFault,if_pos hbuf]
  rfl

lemma eq_of_supplied (hbuf : dataBuffer ≠ 0) (p : ℕ) (refs : ℕ → ℕ) (page : ℕ)
    (hpage : (supplied P dataBuffer p refs).1 = some page) : page = virtToPage P dataBuffer := by
  rw [supplied_eq hbuf] at hpage
  exact (Option.some.inj hpage).symm

lemma rightPage_iff (hbuf : dataBuffer ≠ 0) (p : ℕ) : RightPage P dataBuffer p ↔ p = 0 := by
  unfold RightPage
  simp only [supplied_eq hbuf,forall_const]
  constructor
  · intro h
    split at h
    · have hframe := Option.some.inj h
      omega
    · exact absurd h (Option.some_ne_none _)
  · rintro rfl
    rfl

lemma mreaderLoop_eq (hbuf : dataBuffer ≠ 0) (n i : ℕ) (sum : Word) {m : Mapping ℕ (ℕ → ℕ)}
    (hm : Installed (fun _ page => page = virtToPage P dataBuffer) m) :
    mreaderLoop P dataBuffer mem n i sum m =
      some (sum + ∑ k ∈ Finset.range n, mem (virtToPage P dataBuffer*P + 8*(i+k)%P)) := by
  induction n generalizing i sum m with
  | zero => simp [mreaderLoop]
  | succ n ih =>
    have hnext := hm.touch (supplied P dataBuffer) (eq_of_supplied hbuf) (8*i/P)
    have hthere := isSome_touch (supplied P dataBuffer) (p := 8*i/P)
      (fun refs => by rw [supplied_eq hbuf]; rfl) m
    obtain ⟨page,hpage⟩ := Option.isSome_iff_exists.mp hthere
    rw [mreaderLoop,hpage]
    dsimp only
    rw [ih _ _ hnext,hnext _ _ hpage,Finset.sum_range_succ',add_zero,add_assoc]
    congr 2
    rw [add_comm]
    congr 1
    apply Finset.sum_congr rfl
    intro k _
    rw [add_assoc,add_comm 1 k]

lemma u64InMmap_toInt {w : ℕ} (hw : w < 2^21) :
    (u64InMmap (8*w)).toInt.toNat = 2^DATA_BUFFER_ORDER*w := by
  have horder : DATA_BUFFER_ORDER = 10 := rfl
  have hsize : (BitVec.ofNat 64 (8*w) <<< DATA_BUFFER_ORDER).toNat = 2^13*w := by
    rw [BitVec.toNat_shiftLeft,BitVec.toNat_ofNat,horder,Nat.shiftLeft_eq]
    omega
  have hmsb : (BitVec.ofNat 64 (8*w) <<< DATA_BUFFER_ORDER).msb = false := by
    rw [BitVec.msb_eq_false_iff_two_mul_lt,hsize]
    omega
  have hwords : (u64InMmap (8*w)).toNat = 2^10*w := by
    rw [u64InMmap,BitVec.sshiftRight_eq_of_msb_false hmsb,BitVec.toNat_setWidth,
      BitVec.toNat_ushiftRight,hsize,Nat.shiftRight_eq_div_pow]
    omega
  rw [BitVec.toInt_eq_toNat_of_lt (by rw [hwords]; omega),hwords,horder,Int.toNat_natCast]

lemma bufferLen_eq (w : ℕ) : bufferLen (8*w) = 2^DATA_BUFFER_ORDER*w := by
  rw [bufferLen,Nat.shiftLeft_eq,mul_assoc,Nat.mul_div_cancel_left _ (by decide),mul_comm]

/-- What `mreader` prints: the first page's sum as often as there are pages, whatever was touched
before it ran. -/
theorem mreaderSum_eq (hbuf : dataBuffer ≠ 0) (hpage : P ∣ dataBuffer) (hword : 8 ∣ P)
    (hint : P < 2^24) (touches : List ℕ) :
    mreaderSum P dataBuffer mem touches =
      some (2^DATA_BUFFER_ORDER • firstPageSum P dataBuffer mem) := by
  have hinstalled : Installed (fun _ page => page = virtToPage P dataBuffer)
      (touches.foldl (touch (supplied P dataBuffer)) (fresh fun _ => 0)) :=
    (installed_fresh _).touches _ (eq_of_supplied hbuf) touches
  obtain ⟨w,rfl⟩ := hword
  have hterm : ∀ k, mem (virtToPage (8*w) dataBuffer*(8*w) + 8*(0+k)%(8*w)) =
      mem (dataBuffer + 8*(k % w)) := by
    intro k
    rw [virtToPage,Nat.div_mul_cancel hpage,zero_add,Nat.mul_mod_mul_left]
  rw [mreaderSum,mreaderLoop_eq hbuf _ _ _ hinstalled,u64InMmap_toInt (by omega),zero_add,
    Finset.sum_congr rfl fun k _ => hterm k,
    sum_range_mod (fun i => mem (dataBuffer + 8*i)),firstPageSum,
    Nat.mul_div_cancel_left _ (by decide)]

/-- The offset 0 alone gets its own page. The sum is that of the buffer exactly if the first page's
one, as often as there are pages, is; but the mapping never shows the buffer. -/
theorem shows_first_page (P dataBuffer : ℕ) (mem : ℕ → Word) (hbuf : dataBuffer ≠ 0) :
    (∀ p, RightPage P dataBuffer p ↔ p = 0) ∧
    (P ∣ dataBuffer → 8 ∣ P → P < 2^24 →
      ((∀ touches, mreaderSum P dataBuffer mem touches = some (bufferSum P dataBuffer mem)) ↔
        2^DATA_BUFFER_ORDER • firstPageSum P dataBuffer mem = bufferSum P dataBuffer mem)) ∧
    ¬ ShowsBuffer P dataBuffer mem := by
  refine ⟨rightPage_iff hbuf,fun hpage hword hint => ?_,fun h => ?_⟩
  · simp only [mreaderSum_eq hbuf hpage hword hint,forall_const,Option.some_inj]
  · exact absurd ((rightPage_iff hbuf 1).mp (h.pages 1)) one_ne_zero

theorem shows_first_page_constant :
    (∀ p, RightPage 4096 0x100000 p ↔ p = 0) ∧
      (∀ touches, mreaderSum 4096 0x100000 (fun _ => 1) touches =
        some (bufferSum 4096 0x100000 fun _ => 1)) ∧
      ¬ ShowsBuffer 4096 0x100000 fun _ => 1 := by
  obtain ⟨hpages,hsum,hshows⟩ := shows_first_page 4096 0x100000 (fun _ => 1) (by decide)
  refine ⟨hpages,(hsum (by decide) (by decide) (by decide)).mpr ?_,hshows⟩
  rw [firstPageSum,bufferSum,Finset.sum_const,Finset.sum_const,Finset.card_range,Finset.card_range,
    ← mul_nsmul]
  rfl

/-- The value that `init_data` fills the buffer with. -/
def CODE : Word := 1

def memset64 (s : ℕ) (v : Word) (count : ℕ) (mem : ℕ → Word) : ℕ → Word :=
  Update.stores mem ((List.range count).map fun i => (s + 8*i,v))

/-- `init_data`, with the address that `__get_free_pages` returns. -/
def initData (P dataBuffer : ℕ) (mem : ℕ → Word) : ℤ × (ℕ → Word) :=
  if dataBuffer = 0 then (-ENOMEM,mem)
  else
    let mem := memset64 dataBuffer CODE (bufferLen P) mem
    (0,Update.stores mem [(dataBuffer + 8*(bufferLen P - 1),0)])

lemma initData_word (hbuf : dataBuffer ≠ 0) {i : ℕ} (hi : i < bufferLen P) :
    (initData P dataBuffer mem).2 (dataBuffer + 8*i) =
      if i = bufferLen P - 1 then 0 else CODE := by
  rw [initData,if_neg hbuf]
  dsimp only
  split
  · rename_i hlast
    subst hlast
    apply Update.stores_of_agree
    · simp
    · simp
  · rename_i hlast
    rw [Update.stores_of_forall_ne (by simp; omega)]
    apply Update.stores_of_agree
    · simp
    · exact ⟨_,List.mem_map.mpr ⟨i,List.mem_range.mpr hi,rfl⟩,rfl⟩

/-- On the buffer as the module fills it, `mreader` prints one more than the sum: the zero at the end
is on a page that the mapping does not show. -/
theorem initData_sums {w : ℕ} (hbuf : dataBuffer ≠ 0) (hpage : 8*w ∣ dataBuffer) (hw : 0 < w)
    (hint : w < 2^21) (mem : ℕ → Word) (touches : List ℕ) :
    mreaderSum (8*w) dataBuffer (initData (8*w) dataBuffer mem).2 touches =
        some (bufferLen (8*w) : ℕ) ∧
      bufferSum (8*w) dataBuffer (initData (8*w) dataBuffer mem).2 = (bufferLen (8*w) - 1 : ℕ) := by
  have hlen : bufferLen (8*w) = 1024*w := bufferLen_eq w
  have hfirst : firstPageSum (8*w) dataBuffer (initData (8*w) dataBuffer mem).2 = (w : ℕ) := by
    have hcode : ∀ i ∈ Finset.range w,
        (initData (8*w) dataBuffer mem).2 (dataBuffer + 8*i) = CODE := by
      intro i hi
      have hi' := Finset.mem_range.mp hi
      rw [initData_word hbuf (by omega),if_neg (by omega)]
    rw [firstPageSum,Nat.mul_div_cancel_left _ (by decide),Finset.sum_congr rfl hcode,
      Finset.sum_const,Finset.card_range]
    exact nsmul_one w
  have hrest : ∀ i ∈ Finset.range (1024*w - 1),
      (initData (8*w) dataBuffer mem).2 (dataBuffer + 8*i) = CODE := by
    intro i hi
    have hi' := Finset.mem_range.mp hi
    rw [initData_word hbuf (by omega),if_neg (by omega)]
  refine ⟨?_,?_⟩
  · rw [mreaderSum_eq hbuf hpage (Dvd.intro _ rfl) (by omega),hfirst,hlen]
    congr 1
    rw [Nat.cast_mul,nsmul_eq_mul]
    rfl
  · have hsucc : bufferLen (8*w) = (1024*w - 1) + 1 := by omega
    rw [bufferSum,hsucc,Finset.sum_range_succ,Finset.sum_congr rfl hrest,
      initData_word hbuf (by omega),if_pos (by omega),add_zero,Finset.sum_const,Finset.card_range]
    exact nsmul_one _

theorem second_page_wrong :
    let mem := (initData 4096 0x100000 fun _ => 0).2
    (supplied 4096 0x100000 1 fun _ => 0).1 = some (virtToPage 4096 0x100000) ∧
      mreaderSum 4096 0x100000 mem [] = some 524288 ∧ bufferSum 4096 0x100000 mem = 524287 ∧
      ¬ ShowsBuffer 4096 0x100000 mem := by
  intro mem
  obtain ⟨hread,hsum⟩ := initData_sums (w := 512) (by decide : 0x100000 ≠ 0) (by decide)
    (by decide) (by decide) (fun _ => 0) []
  refine ⟨rfl,hread,hsum,fun h => ?_⟩
  have hright := h.sum []
  rw [hread,hsum] at hright
  exact absurd hright (by decide)

end PmuMin.Breader
