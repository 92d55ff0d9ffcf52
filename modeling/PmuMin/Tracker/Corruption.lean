import PmuMin.Tracker.Stack

/-! What the check field of a stack slot is worth: which changes to an accepted word are caught,
and which of the others change the pointer that the word stands for. -/
namespace PmuMin.Stack
variable {Task : Type}

/-- The error hits the check field where it hits the bits that the field is computed from. -/
def SamePattern (e : Word) : Prop := ∀ i < 14, e.getLsbD i = e.getLsbD (48 + i)

/-- The error hits nothing but the check field and the bits that it is computed from. -/
def Confined (e : Word) : Prop := ∀ i, e.getLsbD i = true → i < 14 ∨ (48 ≤ i ∧ i < 62)

instance : DecidablePred SamePattern := fun e =>
  inferInstanceAs (Decidable (∀ i < 14, e.getLsbD i = e.getLsbD (48 + i)))

section Error
variable {entry : Word} (e : Word)

theorem accepts_xor_iff (h : accepts entry = true) :
    accepts (entry ^^^ e) = true ↔ e.getLsbD 63 = false ∧ SamePattern e := by
  obtain ⟨henabled,hcrc⟩ := (accepts_iff entry).mp h
  rw [accepts_iff,BitVec.getLsbD_xor,henabled]
  apply and_congr
  · cases e.getLsbD 63 <;> simp
  · apply forall₂_congr
    intro i hi
    rw [BitVec.getLsbD_xor,BitVec.getLsbD_xor,hcrc i hi]
    cases e.getLsbD i <;> cases e.getLsbD (48 + i) <;> simp

/-- The pointer is the one before exactly if the error spares its 48 bits. -/
theorem buildPtr_xor_eq_iff :
    buildPtr (entry ^^^ e) = buildPtr entry ↔ ∀ i < 48, e.getLsbD i = false := by
  constructor
  · intro h i hi
    have hbit := congrArg (fun ptr => BitVec.getLsbD ptr i) h
    rw [getLsbD_buildPtr _ i (by omega),getLsbD_buildPtr _ i (by omega),if_pos hi,if_pos hi,
      BitVec.getLsbD_xor] at hbit
    cases he : e.getLsbD i <;> cases hw : entry.getLsbD i <;> simp [he,hw] at hbit ⊢
  · intro h
    apply BitVec.eq_of_getLsbD_eq
    intro i hi
    rw [getLsbD_buildPtr _ i hi,getLsbD_buildPtr _ i hi]
    by_cases h48 : i < 48
    · rw [if_pos h48,if_pos h48,BitVec.getLsbD_xor,h i h48,Bool.xor_false]
    · rw [if_neg h48,if_neg h48,BitVec.getLsbD_xor,h 47 (by decide),Bool.xor_false]

end Error

lemma slot_of_getMagicEntry {s : State Task} {task : Task} {entry : Word}
    (h : getMagicEntry s task = some entry) : s task = some entry ∧ accepts entry = true := by
  cases hslot : s task with
  | none => rw [getMagicEntry_of_none hslot] at h; cases h
  | some word =>
    rw [getMagicEntry_eq hslot] at h
    obtain ⟨haccepts,hword⟩ := Option.ite_none_right_eq_some.mp h
    obtain rfl := Option.some.inj hword
    exact ⟨rfl,haccepts⟩

/-- An error in an accepted slot goes unnoticed exactly if it spares the enable bit and hits the
check field in the pattern in which it hits the 14 low bits. What is confined to these fields and
does not is rejected; and what goes unnoticed changes the pointer exactly if it hits one of its 48
bits. -/
theorem corruption_accepted_iff [DecidableEq Task] {s : State Task} {task : Task} {entry : Word}
    (h : getMagicEntry s task = some entry) (e : Word) :
    let s' := Function.update s task (some (entry ^^^ e))
    (getMagicEntry s' task = some (entry ^^^ e) ↔ e.getLsbD 63 = false ∧ SamePattern e) ∧
      (Confined e → ¬ SamePattern e → getMagicEntry s' task = none) ∧
      (getMagicEntry s' task = some (entry ^^^ e) →
        (getPatchedData s' task ≠ getPatchedData s task ↔ ∃ i < 48, e.getLsbD i = true)) := by
  intro s'
  obtain ⟨-,haccepts⟩ := slot_of_getMagicEntry h
  have hslot : s' task = some (entry ^^^ e) := Function.update_self ..
  have hentry := getMagicEntry_eq hslot
  have hiff := accepts_xor_iff e haccepts
  refine ⟨?_,?_,?_⟩
  · rw [hentry,← hiff]
    cases accepts (entry ^^^ e) <;> simp
  · intro _ hpattern
    rw [hentry,if_neg fun haccepted => hpattern (hiff.mp haccepted).2]
  · intro hs'
    rw [getPatchedData,getPatchedData,hs',h]
    dsimp only
    rw [Ne,buildPtr_xor_eq_iff]
    simp

theorem corruption_accepted_low_bits :
    let s : State Unit := fun _ => some (magicEntry 0xffff888012345678)
    let e : Word := 0x1000000000001
    getPatchedData (Function.update s () (some (magicEntry 0xffff888012345678 ^^^ e))) () ≠
      getPatchedData s () := by
  intro s e
  have h : getMagicEntry s () = some (magicEntry 0xffff888012345678) := by decide
  have hcorrupt := corruption_accepted_iff h e
  exact (hcorrupt.2.2 (hcorrupt.1.mpr (by decide))).mpr ⟨0,by decide,by decide⟩

end PmuMin.Stack
