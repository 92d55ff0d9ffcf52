import PmuMin.Clist.NbBoundedList

/-! The packed index of `nbboundedlist.c` over runs of calls: when the additions of a write carry
from one half into the other. -/
namespace PmuMin.NbBoundedList
open Machine

/-- The list takes no more samples without giving one up. -/
def Full (l : Nbblist) : Prop := HEAD l.idx + l.len = TAIL l.idx

instance (l : Nbblist) : Decidable (Full l) :=
  inferInstanceAs (Decidable (HEAD l.idx + l.len = TAIL l.idx))

section Write
variable (l : Nbblist) (bucket : Memory)

/-- The index that a `write_clist` leaves. -/
lemma writeClist_idx : (writeClist l bucket).idx =
    if Full l then l.idx + l.stride + l.stride <<< 32 else l.idx + l.stride := rfl

lemma TAIL_writeClist :
    (TAIL (writeClist l bucket).idx).toNat = ((TAIL l.idx).toNat + l.stride.toNat) % 2^32 := by
  rw [writeClist_idx]
  split
  · rw [toNat_TAIL_add_shift,toNat_TAIL_add]
  · rw [toNat_TAIL_add]

lemma HEAD_writeClist :
    (HEAD (writeClist l bucket).idx).toNat =
      ((HEAD l.idx).toNat + ((TAIL l.idx).toNat + l.stride.toNat) / 2^32 +
        if Full l then l.stride.toNat else 0) % 2^32 := by
  rw [writeClist_idx]
  split
  · rw [toNat_HEAD_add_shift,toNat_HEAD_add,Nat.mod_add_mod]
  · rw [toNat_HEAD_add,Nat.add_zero]

end Write

/-- The list after a call; a read that does not return leaves it as it is. -/
def call (l : Nbblist) : Op → Nbblist
  | .write bucket => writeClist l bucket
  | .read fuel =>
    match readClist fuel l [] with
    | some (.returned out) => out.list
    | some .overrun | none => l

/-- The halves are two counters: a write adds `s` to TAIL and, if the list was full, to HEAD, a
successful read adds it to HEAD, each modulo `2^32`. -/
def Undisturbed (s : U64) (l : Nbblist) : Op → Prop
  | .write bucket =>
    let l' := writeClist l bucket
    (TAIL l'.idx).toNat = ((TAIL l.idx).toNat + s.toNat) % 2^32 ∧
      (HEAD l'.idx).toNat =
        if Full l then ((HEAD l.idx).toNat + s.toNat) % 2^32 else (HEAD l.idx).toNat
  | .read fuel => ∀ out, readClist fuel l [] = some (.returned out) → out.ret ≠ 0 →
    (HEAD out.list.idx).toNat = ((HEAD l.idx).toNat + s.toNat) % 2^32 ∧
      (TAIL out.list.idx).toNat = (TAIL l.idx).toNat

/-- What a read leaves of the list, whether it returns or not. -/
lemma call_read_cases (l : Nbblist) (fuel : ℕ) :
    call l (.read fuel) = l ∨ call l (.read fuel) = { l with idx := l.idx + l.stride <<< 32 } := by
  rw [call]
  cases hout : readClist fuel l [] with
  | none => exact .inl rfl
  | some outcome =>
    rcases readClist_cases hout with ⟨-,rfl⟩ | ⟨-,-,rfl⟩ | ⟨-,-,rfl⟩
    · exact .inl rfl
    · exact .inl rfl
    · exact .inr rfl

lemma call_stride (l : Nbblist) (op : Op) : (call l op).stride = l.stride := by
  cases op with
  | write bucket => rfl
  | read fuel => rcases call_read_cases l fuel with h | h <;> rw [h]

lemma call_len (l : Nbblist) (op : Op) : (call l op).len = l.len := by
  cases op with
  | write bucket => rfl
  | read fuel => rcases call_read_cases l fuel with h | h <;> rw [h]

lemma TAIL_call_read (l : Nbblist) (fuel : ℕ) :
    (TAIL (call l (.read fuel)).idx).toNat = (TAIL l.idx).toNat := by
  rcases call_read_cases l fuel with h | h
  · rw [h]
  · rw [h,toNat_TAIL_add_shift]

lemma undisturbed_read (l : Nbblist) (fuel : ℕ) : Undisturbed l.stride l (.read fuel) := by
  intro out hout hret
  rcases readClist_returned hout with ⟨-,rfl⟩ | ⟨-,-,rfl⟩
  · exact absurd rfl hret
  · exact ⟨toNat_HEAD_add_shift ..,toNat_TAIL_add_shift ..⟩

/-- A write keeps the halves apart exactly if TAIL has room for it. -/
lemma undisturbed_write_iff {l : Nbblist} (hs : l.stride.toNat < 2^32) (bucket : Memory) :
    Undisturbed l.stride l (.write bucket) ↔ (TAIL l.idx).toNat + l.stride.toNat < 2^32 := by
  have htail := TAIL_lt l.idx
  have hhead := HEAD_lt l.idx
  simp only [Undisturbed,TAIL_writeClist,HEAD_writeClist,true_and]
  split <;> omega

/-- From any state on, TAIL must hold what all the writes add to it. -/
lemma undisturbed_run_iff {s : U64} (hs : s.toNat < 2^32) {l : Nbblist} (hl : l.stride = s)
    (ops : List Op) :
    Admits call (Undisturbed s) l ops ↔
      (TAIL l.idx).toNat + ops.countP Op.isWrite * s.toNat < 2^32 := by
  induction ops generalizing l with
  | nil =>
    simp only [Admits,List.countP_nil,Nat.zero_mul,Nat.add_zero,true_iff]
    exact TAIL_lt l.idx
  | cons op ops ih =>
    have hnext : (call l op).stride = s := (call_stride l op).trans hl
    rw [Admits,ih hnext]
    subst hl
    cases op with
    | read fuel =>
      rw [TAIL_call_read,List.countP_cons_of_neg (by simp [Op.isWrite])]
      exact and_iff_right (undisturbed_read l fuel)
    | write bucket =>
      rw [undisturbed_write_iff hs,call,TAIL_writeClist,List.countP_cons_of_pos rfl,Nat.succ_mul]
      omega

/-- The list of `0x80000000` bytes an entry: the second write carries into HEAD. -/
theorem tail_carries :
    ¬ Admits call (Undisturbed 0x80000000) ⟨0x80000000,1,0,fun _ => 0,0x80000018⟩
      [.write fun _ => 7,.write fun _ => 8] := by
  intro h
  exact absurd h.2.1.2 (by decide)

/-- The halves of the index never disturb each other in exactly those runs, of any length, whose
writes fit into TAIL together. -/
theorem halves_apart_iff {n s : U64} (hs : s.toNat < 2^32) {mem : Memory} {l : Nbblist}
    (hl : initClist (some mem) n s = some l) (ops : List Op) :
    Admits call (Undisturbed s) l ops ↔ ops.countP Op.isWrite * s.toNat < 2^32 := by
  obtain rfl := Option.some.inj hl
  have htail : (TAIL 0).toNat = 0 := by decide
  rw [undisturbed_run_iff hs rfl,htail,Nat.zero_add]

/-- Two writes and a read of eight bytes each. -/
theorem halves_apart_short :
    Admits call (Undisturbed 8) ⟨8,16,0,fun _ => 0,152⟩
      [.write fun _ => 7,.write fun _ => 8,.read 2] :=
  (halves_apart_iff (n := 16) (by decide)
    (rfl : initClist (some fun _ => 0) 16 8 = some ⟨8,16,0,fun _ => 0,152⟩) _).mpr (by decide)

end PmuMin.NbBoundedList
