import PmuMin.Breader.Raw

/-! Which bytes of the memory a read of the raw device lets out, for every position and count. -/
namespace PmuMin.Breader
open Client

/-- The offsets from `data_buffer` on of the bytes that `breader_read` copies. -/
def copied (failed count ppos : BitVec 64) : List ℕ :=
  if ppos &&& 0x7 ≠ 0 then []
  else
    let len := BitVec.ofNat 64 DATA_BUFFER_LEN
    let start := (ppos.sshiftRight 3).setWidth 32
    if start.signExtend 64 = len then []
    else if len < start.signExtend 64 ∨ count < 8 then []
    else List.range (firstCopy count - failed).toNat

theorem breaderRead_delivered (mem : ℕ → Byte) (failed count ppos : BitVec 64) :
    (breaderRead mem failed count ppos).delivered = (copied failed count ppos).map mem := by
  unfold breaderRead copied
  dsimp only
  split_ifs <;> rfl

/-- The call returns before it copies: the position is no multiple of a word, or the word it stands
for, as an `int` sees it, is not in the buffer, or there is no room for a word. -/
def Rejected (count ppos : BitVec 64) : Prop :=
  ¬ 8 ∣ ppos.toNat ∨ DATA_BUFFER_LEN ≤ ppos.toNat / 8 % 2^32 ∨ count.toNat < 8

instance (count ppos : BitVec 64) : Decidable (Rejected count ppos) :=
  inferInstanceAs (Decidable (_ ∨ _ ∨ _))

section Position
variable {ppos : BitVec 64}

lemma misaligned_iff (ppos : BitVec 64) : ppos &&& 0x7 ≠ 0 ↔ ¬ 8 ∣ ppos.toNat := by
  rw [Ne,← BitVec.toNat_inj,BitVec.toNat_and]
  have hmask : (0x7 : BitVec 64).toNat = 2^3 - 1 := by decide
  rw [hmask,Nat.and_two_pow_sub_one_eq_mod,Nat.dvd_iff_mod_eq_zero]
  rfl

/-- A word of 64 bits, narrowed to an `int` and widened again. -/
lemma toNat_narrow (x : BitVec 64) : ((x.setWidth 32).signExtend 64).toNat =
    x.toNat % 2^32 + if 2^31 ≤ x.toNat % 2^32 then 2^64 - 2^32 else 0 := by
  have hsign := BitVec.toNat_signExtend (v := 64) (x.setWidth 32)
  rw [BitVec.toNat_setWidth,BitVec.msb_eq_decide,BitVec.toNat_setWidth] at hsign
  simp only [decide_eq_true_eq] at hsign
  rw [hsign]
  split_ifs <;> omega

lemma toNat_start (hppos : ppos.toNat < 2^63) : (ppos.sshiftRight 3).toNat = ppos.toNat / 8 := by
  have hmsb : ppos.msb = false := by
    rw [BitVec.msb_eq_decide]
    exact decide_eq_false (by omega)
  rw [BitVec.sshiftRight_eq_of_msb_false hmsb,BitVec.toNat_ushiftRight,Nat.shiftRight_eq_div_pow]

lemma toNat_words (count : BitVec 64) : (count >>> 3).toNat = count.toNat / 8 := by
  rw [BitVec.toNat_ushiftRight,Nat.shiftRight_eq_div_pow]

/-- The first three exits together. -/
lemma rejected_iff (hppos : ppos.toNat < 2^63) (count : BitVec 64) :
    let len := BitVec.ofNat 64 DATA_BUFFER_LEN
    let start := ((ppos.sshiftRight 3).setWidth 32).signExtend 64
    Rejected count ppos ↔
      ppos &&& 0x7 ≠ 0 ∨ start = len ∨ len < start ∨ count < 8 := by
  have hlen : (BitVec.ofNat 64 DATA_BUFFER_LEN).toNat = 524288 := by decide
  have hlen' : DATA_BUFFER_LEN = 524288 := by decide
  have hcount : (8 : BitVec 64).toNat = 8 := rfl
  dsimp only
  rw [Rejected,misaligned_iff,← BitVec.toNat_inj,BitVec.lt_def,BitVec.lt_def,toNat_narrow,
    toNat_start hppos,hlen,hlen',hcount,← or_assoc (b := _ < _)]
  refine or_congr_right (or_congr_left ?_)
  split_ifs <;> omega

theorem copied_eq (hppos : ppos.toNat < 2^63) (failed count : BitVec 64) :
    copied failed count ppos =
      if Rejected count ppos then [] else List.range (firstCopy count - failed).toNat := by
  have hrejected := rejected_iff hppos count
  rw [copied]
  dsimp only at hrejected ⊢
  by_cases hreject : Rejected count ppos
  · rw [if_pos hreject]
    rcases hrejected.mp hreject with hpos | hend | hshort
    · rw [if_pos hpos]
    · rw [if_pos hend,ite_self]
    · rw [if_pos hshort,ite_self,ite_self]
  · have hnone := mt hrejected.mpr hreject
    rw [not_or,not_or] at hnone
    rw [if_neg hreject,if_neg hnone.1,if_neg hnone.2.1,if_neg hnone.2.2]

end Position

/-- What a read may let out of the buffer. -/
structure InBuffer (failed count ppos : BitVec 64) : Prop where
  delivered : ∀ mem, (breaderRead mem failed count ppos).delivered =
    (copied failed count ppos).map mem
  offsets : ∀ i ∈ copied failed count ppos, ppos.toNat ≤ i ∧ i < DATA_BUFFER_SIZE
  length : (copied failed count ppos).length ≤ count.toNat
  past : DATA_BUFFER_SIZE ≤ ppos.toNat → copied failed count ppos = []

/-- A read at the second word gives the first one away; a read at the word `2^32`, far behind the
end, copies as well; and a read of 64 MiB goes on behind the end. -/
theorem reads_outside :
    ¬ InBuffer 0 64 8 ∧ ¬ InBuffer 0 64 0x800000000 ∧ ¬ InBuffer 0 0x4000000 0 := by
  have hcopied : ∀ count ppos : BitVec 64, ppos.toNat < 2^63 → ¬ Rejected count ppos →
      copied 0 count ppos = List.range (firstCopy count - 0).toNat := by
    intro count ppos hppos hrejected
    rw [copied_eq hppos,if_neg hrejected]
  refine ⟨fun h => ?_,fun h => ?_,fun h => ?_⟩
  · have hoffsets := h.offsets 0
    rw [hcopied _ _ (by decide) (by decide)] at hoffsets
    exact absurd (hoffsets (by decide)).1 (by decide)
  · have hpast := h.past (by decide)
    rw [hcopied _ _ (by decide) (by decide)] at hpast
    exact absurd hpast (by decide)
  · have hoffsets := h.offsets DATA_BUFFER_SIZE
    rw [hcopied _ _ (by decide) (by decide)] at hoffsets
    exact absurd (hoffsets (List.mem_range.mpr (by decide))).2 (lt_irrefl _)

lemma inBuffer_of_eq_nil {failed count ppos : BitVec 64} (h : copied failed count ppos = []) :
    InBuffer failed count ppos := by
  refine ⟨fun mem => breaderRead_delivered mem failed count ppos,?_,?_,fun _ => h⟩
  · rw [h]
    exact List.forall_mem_nil _
  · rw [h]
    exact Nat.zero_le _

/-- A read at the front that copies no more than the buffer. -/
lemma inBuffer_front {failed count : BitVec 64}
    (hcopied : copied failed count 0 = List.range ((firstCopy count).toNat - failed.toNat))
    (hsize : (firstCopy count).toNat - failed.toNat ≤ DATA_BUFFER_SIZE) :
    InBuffer failed count 0 := by
  have hcount : DATA_BUFFER_SIZE ≤ count.toNat ∨ (firstCopy count).toNat ≤ count.toNat := by
    have hlen : DATA_BUFFER_SIZE = 4194304 := by decide
    rw [firstCopy,toNat_narrow,toNat_words,hlen]
    split_ifs <;> omega
  refine ⟨fun mem => breaderRead_delivered mem failed count 0,fun i hi => ?_,?_,
    fun hend => absurd hend (by decide)⟩
  · rw [hcopied] at hi
    exact ⟨Nat.zero_le _,(List.mem_range.mp hi).trans_le hsize⟩
  · rw [hcopied,List.length_range]
    omega

/-- A read stays inside the buffer exactly if it is rejected, or nothing can be copied, or it is at
the very front and copies no more than the buffer. -/
theorem in_buffer_iff {failed count ppos : BitVec 64} (hppos : ppos.toNat < 2^63)
    (hfailed : failed.toNat ≤ (firstCopy count).toNat) :
    InBuffer failed count ppos ↔ Rejected count ppos ∨ failed = firstCopy count ∨
      ppos = 0 ∧ (firstCopy count).toNat - failed.toNat ≤ DATA_BUFFER_SIZE := by
  have hdiff : (firstCopy count - failed).toNat = (firstCopy count).toNat - failed.toNat :=
    BitVec.toNat_sub_of_le hfailed
  have hcopied := copied_eq hppos failed count
  rw [hdiff] at hcopied
  by_cases hrejected : Rejected count ppos
  · rw [if_pos hrejected] at hcopied
    exact iff_of_true (inBuffer_of_eq_nil hcopied) (.inl hrejected)
  · rw [if_neg hrejected] at hcopied
    rw [or_iff_right hrejected]
    constructor
    · intro h
      rcases Nat.eq_zero_or_pos ((firstCopy count).toNat - failed.toNat) with hzero | hpos
      · exact .inl (BitVec.eq_of_toNat_eq (by omega))
      · right
        have hfront := (h.offsets 0 (by rw [hcopied]; exact List.mem_range.mpr hpos)).1
        refine ⟨BitVec.eq_of_toNat_eq (Nat.le_zero.mp hfront),?_⟩
        by_contra hlong
        have hend : DATA_BUFFER_SIZE ∈ copied failed count ppos := by
          rw [hcopied]
          exact List.mem_range.mpr (Nat.lt_of_not_le hlong)
        exact lt_irrefl _ (h.offsets _ hend).2
    · rintro (rfl | ⟨rfl,hsize⟩)
      · apply inBuffer_of_eq_nil
        rw [hcopied,Nat.sub_self]
        rfl
      · exact inBuffer_front hcopied hsize

/-- The first page, all of it copied. -/
theorem in_buffer_page :
    InBuffer 0 4096 0 :=
  (in_buffer_iff (by decide) (by decide)).mpr (.inr (.inr ⟨rfl,by decide⟩))

end PmuMin.Breader
