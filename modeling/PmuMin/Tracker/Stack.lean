import PmuMin.Tracker.Interface
import PmuMin.Library.BitField

/-! The tracker of `ptracker_stack.c`: the datum of a task is packed into one word of its kernel
stack, next to a check field that tells a patched word from a stale one. -/
namespace PmuMin.Stack
open Machine

def PTR_BITS : ℕ := 48
def PTR_THR_BIT : Word := 1#64 <<< (PTR_BITS - 1)
def PTR_USED_MASK : Word := (1#64 <<< PTR_BITS) - 1
def PTR_FREE_MASK : Word := ~~~PTR_USED_MASK
def PTR_CRC_MASK : Word := ((1#64 <<< (64 - PTR_BITS - 2)) - 1) <<< 48
def PTR_CCB_MASK : Word := (1#64 <<< (64 - PTR_BITS - 2)) - 1
def PROCESS_BIT : ℕ := 62
def ENABLED_BIT : ℕ := 63
def PROCESS_MASK : Word := 1#64 <<< PROCESS_BIT
def ENABLED_MASK : Word := 1#64 <<< ENABLED_BIT
def CRC_MAGIC : Word := 0xc

def checkCrc (ctl : Word) : Bool :=
  ((ctl &&& PTR_CCB_MASK) ^^^ CRC_MAGIC) == ((ctl &&& PTR_CRC_MASK) >>> 48)

def buildPtr (ptr : Word) : Word :=
  if ptr &&& PTR_THR_BIT ≠ 0 then PTR_FREE_MASK ||| ptr else PTR_USED_MASK &&& ptr

/-- The word at `task_stack_page(task) + sizeof(ulong)`, the `last_entry` of each task; `none`
for a task without a stack. -/
abbrev State (Task : Type) := Task → Option Word

/-- The word `patch_thread_stack` builds for a datum. -/
def magicEntry (data : Word) : Word :=
  let entry := data &&& PTR_USED_MASK
  let entry := entry ||| (((entry &&& PTR_CCB_MASK) ^^^ CRC_MAGIC) <<< 48)
  let entry := entry &&& ~~~PROCESS_MASK
  entry ||| ENABLED_MASK

variable {Task : Type}

section Functions
variable [DecidableEq Task]

def patchThreadStack (s : State Task) (task : Option Task) (data : Word) : State Task × ℤ :=
  match task with
  | none => (s,-EINVAL)
  | some task =>
    match s task with
    | none => (s,-EINVAL)
    | some _ => (Function.update s task (some (magicEntry data)),0)

def restoreThreadStack (s : State Task) (task : Option Task) : State Task × ℤ :=
  match task with
  | none => (s,-EINVAL)
  | some task =>
    match s task with
    | none => (s,0)
    | some _ => (Function.update s task (some 0),0)

omit [DecidableEq Task] in
def getMagicEntry (s : State Task) (task : Task) : Option Word :=
  match s task with
  | none => none
  | some entry =>
    if !checkCrc entry || entry &&& ENABLED_MASK == 0 then none else some entry

omit [DecidableEq Task] in
def getPatchedData (s : State Task) (task : Task) : Word :=
  match getMagicEntry s task with
  | none => NULL
  | some entry => buildPtr entry

def trackerAdd (s : State Task) (task : Task) (data : Word) : State Task × ℤ :=
  ((patchThreadStack s (some task) data).1,0)

def trackerDel (s : State Task) (task : Task) : State Task × Word :=
  match getMagicEntry s task with
  | none => (s,NULL)
  | some _ => ((restoreThreadStack s (some task)).1,getPatchedData s task)

def queryTracker (s : State Task) (task : Task) : Bool := (getMagicEntry s task).isSome

def queryDataTracker (s : State Task) (task : Task) : Word := getPatchedData s task

def tracker : Tracker Task (State Task) where
  trackerAdd _ := trackerAdd
  trackerDel _ := trackerDel
  queryTracker _ := queryTracker
  queryDataTracker _ := queryDataTracker

end Functions

section Bits

@[simp] lemma getLsbD_usedMask (i : ℕ) : PTR_USED_MASK.getLsbD i = decide (i < 48) :=
  BitField.getLsbD_lowMask (by decide) i

@[simp] lemma getLsbD_ccbMask (i : ℕ) : PTR_CCB_MASK.getLsbD i = decide (i < 14) :=
  BitField.getLsbD_lowMask (by decide) i

@[simp] lemma getLsbD_crcMask (i : ℕ) :
    PTR_CRC_MASK.getLsbD i = (decide (48 ≤ i) && decide (i < 62)) := by
  change (PTR_CCB_MASK <<< 48).getLsbD i = _
  rw [BitVec.getLsbD_shiftLeft,getLsbD_ccbMask]
  grind

@[simp] lemma getLsbD_processMask (i : ℕ) : PROCESS_MASK.getLsbD i = decide (i = 62) := by
  rw [PROCESS_MASK,BitField.getLsbD_bit]
  grind [PROCESS_BIT]

@[simp] lemma getLsbD_enabledMask (i : ℕ) : ENABLED_MASK.getLsbD i = decide (i = 63) := by
  rw [ENABLED_MASK,BitField.getLsbD_bit]
  grind [ENABLED_BIT]

lemma getLsbD_magic_of_ge (i : ℕ) (hi : 14 ≤ i) : CRC_MAGIC.getLsbD i = false := by
  rw [← BitVec.testBit_toNat]
  apply Nat.testBit_lt_two_pow
  calc CRC_MAGIC.toNat < 2^14 := by decide
    _ ≤ 2^i := Nat.pow_le_pow_right (by omega) hi

/-- The encoder, bit by bit: pointer, check field, clear process bit, set enable bit. -/
theorem getLsbD_magicEntry (data : Word) (i : ℕ) (hi : i < 64) :
    (magicEntry data).getLsbD i =
      if i < 48 then data.getLsbD i
      else if i < 62 then data.getLsbD (i - 48) ^^ CRC_MAGIC.getLsbD (i - 48)
      else decide (i = 63) := by
  simp only [magicEntry,BitVec.getLsbD_or,BitVec.getLsbD_and,BitVec.getLsbD_not,
    BitVec.getLsbD_shiftLeft,BitVec.getLsbD_xor,getLsbD_usedMask,getLsbD_ccbMask,
    getLsbD_processMask,getLsbD_enabledMask,hi,decide_true,Bool.true_and]
  by_cases h48 : i < 48
  · have h62 : i ≠ 62 := by omega
    have h63 : i ≠ 63 := by omega
    simp [h48,h62,h63]
  · by_cases h62 : i < 62
    · have hc : i - 48 < 14 := by omega
      have hp : i - 48 < 48 := by omega
      have hn62 : i ≠ 62 := by omega
      have hn63 : i ≠ 63 := by omega
      simp [h48,h62,hc,hp,hn62,hn63]
    · by_cases h63 : i = 63
      · simp [h63]
      · have he : i = 62 := by omega
        simp [he]

/-- The check of `get_magic_entry` on a slot word. -/
def accepts (entry : Word) : Bool := checkCrc entry && !(entry &&& ENABLED_MASK == 0)

lemma checkCrc_iff (entry : Word) :
    checkCrc entry = true ↔
      ∀ i < 14, entry.getLsbD (48 + i) = (entry.getLsbD i ^^ CRC_MAGIC.getLsbD i) := by
  rw [checkCrc,beq_iff_eq]
  constructor
  · intro h i hi
    have hb := congrArg (fun x => BitVec.getLsbD x i) h
    have h62 : 48 + i < 62 := by omega
    simpa [hi,h62] using hb.symm
  · intro h
    apply BitVec.eq_of_getLsbD_eq
    intro i hi64
    by_cases hi : i < 14
    · have h62 : 48 + i < 62 := by omega
      simp [hi,h62,← h i hi]
    · have h62 : ¬ 48 + i < 62 := by omega
      simp [hi,h62,getLsbD_magic_of_ge i (by omega)]

/-- The words `get_magic_entry` accepts, bit by bit. -/
theorem accepts_iff (entry : Word) :
    accepts entry = true ↔ entry.getLsbD 63 = true ∧
      ∀ i < 14, entry.getLsbD (48 + i) = (entry.getLsbD i ^^ CRC_MAGIC.getLsbD i) := by
  have he : (!(entry &&& ENABLED_MASK == 0)) = true ↔ entry.getLsbD 63 = true := by
    rw [← BitField.and_bit_ne_zero (by decide : 63 < 64)]
    simp [ENABLED_MASK,ENABLED_BIT]
  rw [accepts,Bool.and_eq_true,he,checkCrc_iff,and_comm]

theorem buildPtr_eq_signExtend (entry : Word) :
    buildPtr entry = (entry.setWidth 48).signExtend 64 :=
  BitField.signExtend_eq_mask (k := 47) (by decide) entry

lemma getLsbD_buildPtr (entry : Word) (i : ℕ) (hi : i < 64) :
    (buildPtr entry).getLsbD i = if i < 48 then entry.getLsbD i else entry.getLsbD 47 := by
  rw [buildPtr_eq_signExtend,BitVec.getLsbD_signExtend,BitVec.msb_setWidth'',
    BitVec.getLsbD_setWidth]
  by_cases h : i < 48 <;> simp [hi,h]

theorem canonical_buildPtr (entry : Word) : Canonical (buildPtr entry) := by
  intro i h47 hi
  rw [getLsbD_buildPtr entry i hi,getLsbD_buildPtr entry 47 (by decide)]
  by_cases h : i < 48
  · obtain rfl : i = 47 := by omega
    simp
  · simp [h]

theorem buildPtr_eq_self_iff (data : Word) : buildPtr data = data ↔ Canonical data := by
  constructor
  · intro h
    rw [← h]
    exact canonical_buildPtr data
  · intro h
    apply BitVec.eq_of_getLsbD_eq
    intro i hi
    rw [getLsbD_buildPtr data i hi]
    by_cases h48 : i < 48
    · rw [if_pos h48]
    · rw [if_neg h48,h i (by omega) hi]

theorem accepts_magicEntry (data : Word) : accepts (magicEntry data) = true := by
  rw [accepts_iff]
  refine ⟨by rw [getLsbD_magicEntry data 63 (by decide)]; rfl,fun i hi => ?_⟩
  rw [getLsbD_magicEntry data (48 + i) (by omega),getLsbD_magicEntry data i (by omega),
    if_neg (by omega),if_pos (by omega),if_pos (by omega),Nat.add_sub_cancel_left]

theorem buildPtr_magicEntry (data : Word) : buildPtr (magicEntry data) = buildPtr data := by
  apply BitVec.eq_of_getLsbD_eq
  intro i hi
  rw [getLsbD_buildPtr _ i hi,getLsbD_buildPtr _ i hi]
  by_cases h : i < 48
  · rw [if_pos h,if_pos h,getLsbD_magicEntry data i hi,if_pos h]
  · rw [if_neg h,if_neg h,getLsbD_magicEntry data 47 (by decide),if_pos (by decide)]

/-- Re-encoding what an accepted word decodes to restores the word up to its process bit. -/
theorem magicEntry_buildPtr {entry : Word} (h : accepts entry = true) :
    magicEntry (buildPtr entry) = entry &&& ~~~PROCESS_MASK := by
  obtain ⟨hen,hcrc⟩ := (accepts_iff entry).mp h
  apply BitVec.eq_of_getLsbD_eq
  intro i hi
  rw [getLsbD_magicEntry _ i hi,BitVec.getLsbD_and,BitVec.getLsbD_not,getLsbD_processMask]
  by_cases h48 : i < 48
  · have h62 : i ≠ 62 := by omega
    rw [if_pos h48,getLsbD_buildPtr entry i hi,if_pos h48]
    simp [h62,hi]
  · by_cases h62 : i < 62
    · have hc := hcrc (i - 48) (by omega)
      rw [show 48 + (i - 48) = i by omega] at hc
      have hn : i ≠ 62 := by omega
      rw [if_neg h48,if_pos h62,getLsbD_buildPtr entry (i - 48) (by omega),if_pos (by omega),← hc]
      simp [hn,hi]
    · rw [if_neg h48,if_neg h62]
      by_cases h63 : i = 63
      · simp [h63,hen]
      · have he : i = 62 := by omega
        simp [he]

@[simp] theorem accepts_zero : accepts 0#64 = false := by decide

lemma accepts_clear_process (entry : Word) :
    accepts (entry &&& ~~~PROCESS_MASK) = accepts entry := by
  have hb : ∀ i < 64, i ≠ 62 →
      (entry &&& ~~~PROCESS_MASK).getLsbD i = entry.getLsbD i := by
    intro i hi hn
    rw [BitVec.getLsbD_and,BitVec.getLsbD_not,getLsbD_processMask]
    simp [hn,hi]
  rw [Bool.eq_iff_iff,accepts_iff,accepts_iff,hb 63 (by decide) (by decide)]
  refine and_congr_right fun _ => forall₂_congr fun i hi => ?_
  rw [hb (48 + i) (by omega) (by omega),hb i (by omega) (by omega)]

/-- Up to the process bit the accepted words are the encodings of the canonical pointers. -/
theorem accepts_iff_exists_canonical (entry : Word) :
    accepts entry = true ↔
      ∃ ptr, Canonical ptr ∧ magicEntry ptr = entry &&& ~~~PROCESS_MASK := by
  constructor
  · intro h
    exact ⟨buildPtr entry,canonical_buildPtr entry,magicEntry_buildPtr h⟩
  · rintro ⟨ptr,-,h⟩
    rw [← accepts_clear_process,← h]
    exact accepts_magicEntry ptr

end Bits

section Slots
variable {s : State Task} {task : Task} {entry : Word}

theorem getMagicEntry_eq (h : s task = some entry) :
    getMagicEntry s task = if accepts entry then some entry else none := by
  rw [getMagicEntry,h,accepts]
  by_cases hc : checkCrc entry = true <;> by_cases he : entry &&& ENABLED_MASK = 0 <;>
    simp [hc,he]

@[simp] theorem getMagicEntry_of_none (h : s task = none) : getMagicEntry s task = none := by
  rw [getMagicEntry,h]

theorem queryTracker_eq (h : s task = some entry) : queryTracker s task = accepts entry := by
  rw [queryTracker,getMagicEntry_eq h]
  cases accepts entry <;> rfl

theorem queryDataTracker_eq (h : s task = some entry) :
    queryDataTracker s task = if accepts entry then buildPtr entry else NULL := by
  rw [queryDataTracker,getPatchedData,getMagicEntry_eq h]
  cases accepts entry <;> rfl

variable [DecidableEq Task]

theorem trackerAdd_eq (h : s task = some entry) (data : Word) :
    trackerAdd s task data = (Function.update s task (some (magicEntry data)),0) := by
  simp [trackerAdd,patchThreadStack,h]

theorem trackerAdd_of_none (h : s task = none) (data : Word) :
    trackerAdd s task data = (s,0) := by
  simp [trackerAdd,patchThreadStack,h]

/-- What `tracker_del` does to an accepted slot and to any other. -/
theorem trackerDel_eq (h : s task = some entry) :
    trackerDel s task =
      if accepts entry then (Function.update s task (some 0),buildPtr entry) else (s,NULL) := by
  rw [trackerDel,getMagicEntry_eq h]
  by_cases ha : accepts entry = true
  · simp [ha,restoreThreadStack,getPatchedData,getMagicEntry_eq h,h]
  · simp [ha]

theorem trackerDel_of_none (h : s task = none) : trackerDel s task = (s,NULL) := by
  rw [trackerDel,getMagicEntry_of_none h]

/-- The pointer codec of the stack tracker. Encoding any 64-bit value and decoding it gives the
sign extension of its 48 low bits, so the value itself exactly when it is canonical. Decoding
any slot word that is accepted and encoding it gives the word with a clear process bit, so the
accepted words are the encodings of canonical pointers; and `tracker_del` returns what the slot
decodes to and leaves a slot that is not accepted. -/
theorem codec (h : s task = some entry) :
    (∀ data,
      let s' := (trackerAdd s task data).1
      queryTracker s' task = true ∧
        queryDataTracker s' task = (data.setWidth 48).signExtend 64 ∧
        (queryDataTracker s' task = data ↔ Canonical data)) ∧
    (getMagicEntry s task = some entry ↔
      ∃ ptr, Canonical ptr ∧ magicEntry ptr = entry &&& ~~~PROCESS_MASK) ∧
    (getMagicEntry s task = some entry →
      (patchThreadStack s (some task) (getPatchedData s task)).1 task =
          some (entry &&& ~~~PROCESS_MASK) ∧
        (trackerDel s task).2 = getPatchedData s task ∧
        getMagicEntry (trackerDel s task).1 task = none) := by
  have hacc : getMagicEntry s task = some entry ↔ accepts entry = true := by
    rw [getMagicEntry_eq h]
    cases accepts entry <;> simp
  refine ⟨fun data => ?_,hacc.trans (accepts_iff_exists_canonical entry),fun hs => ?_⟩
  · have hslot : (trackerAdd s task data).1 task = some (magicEntry data) := by
      rw [trackerAdd_eq h]
      simp
    have hdata : queryDataTracker (trackerAdd s task data).1 task = buildPtr data := by
      rw [queryDataTracker_eq hslot,if_pos (accepts_magicEntry data),buildPtr_magicEntry]
    refine ⟨by rw [queryTracker_eq hslot,accepts_magicEntry],?_,?_⟩
    · rw [hdata,buildPtr_eq_signExtend]
    · rw [hdata,buildPtr_eq_self_iff]
  · have ha := hacc.mp hs
    have hp : getPatchedData s task = buildPtr entry := by rw [getPatchedData,hs]
    refine ⟨?_,?_,?_⟩
    · simp [patchThreadStack,h,hp,magicEntry_buildPtr ha]
    · rw [trackerDel_eq h,if_pos ha,hp]
    · rw [trackerDel_eq h,if_pos ha]
      exact (getMagicEntry_eq (Function.update_self ..)).trans (by simp)

/-- A kernel pointer through an unpatched slot. -/
theorem codec_kernel_pointer :
    queryDataTracker (trackerAdd (fun _ : Unit => some 0) () 0xffff888012345678).1 () =
      0xffff888012345678 :=
  have h : (fun _ : Unit => some (0 : Word)) () = some 0 := rfl
  ((codec h).1 0xffff888012345678).2.2.mpr (by decide)

end Slots
end PmuMin.Stack
