import PmuMin.Clist.NbBoundedList
import PmuMin.Library.SlotBuffer
import Mathlib.Tactic.Ring

/-! The locked array of `carray.c`. Its cursor is an `int` in bytes, compared with a `size_t` count
of entries. -/
namespace PmuMin.LockedArray
open NbBoundedList (U64 Memory memcpy)
open SlotBuffer

/-- `struct carray`; a call runs with `lock` held. -/
structure Carray where
  len : U64
  stride : U64
  idx : BitVec 32
  buf : Memory

/-- `init_clist`; `kvmalloc` gives `buf` with what the memory held before. -/
def initClist (kvmalloc : Option Memory) (entry_count entry_size : U64) : Option Carray :=
  kvmalloc.map fun buf => ⟨entry_count,entry_size,0,buf⟩

/-- The offset in `buf` at which the next `write_clist` stores its sample. -/
def entry (carray : Carray) : ℕ := (carray.idx.signExtend 64).toNat

/-- `write_clist`; C converts the cursor to `size_t` for the comparison and for the sum. -/
def writeClist (carray : Carray) (bucket : Memory) : Carray :=
  { carray with
    buf := memcpy carray.buf (entry carray) bucket carray.stride.toNat
    idx :=
      if carray.idx.signExtend 64 < carray.len - 1 then
        (carray.idx.signExtend 64 + carray.stride).setWidth 32
      else 0 }

theorem writeClist_buf (carray : Carray) (bucket : Memory) :
    (writeClist carray bucket).buf =
      store carray.buf (entry carray) carray.stride.toNat bucket := rfl

/-- The number of slots the cursor visits before it is reset. -/
def slots (n s : ℕ) : ℕ := (n + s - 2) / s + 1

/-- The array after `i` writes; the cursor goes round the first `slots` multiples of the stride. -/
structure Written (n s : U64) (i : ℕ) (carray : Carray) : Prop where
  stride : carray.stride = s
  len : carray.len = n
  idx : carray.idx.toNat = s.toNat * (i % slots n.toNat s.toNat)

section Slots
variable {n s : ℕ} (hn : 0 < n) (hs : 0 < s)
include hn hs

lemma mul_lt_iff (r : ℕ) : s*r < n - 1 ↔ r + 1 < slots n s := by
  unfold slots
  rw [Nat.succ_lt_succ_iff,Nat.lt_iff_add_one_le,Nat.lt_iff_add_one_le,Nat.le_div_iff_mul_le hs]
  rw [Nat.succ_mul,Nat.mul_comm r s]
  omega

lemma slots_le : slots n s ≤ n := by
  obtain ⟨a,rfl⟩ := Nat.exists_eq_succ_of_ne_zero hn.ne'
  obtain ⟨b,rfl⟩ := Nat.exists_eq_succ_of_ne_zero hs.ne'
  unfold slots
  refine Nat.succ_le_of_lt ((Nat.div_lt_iff_lt_mul hs).mpr ?_)
  have hprod : (a + 1)*(b + 1) = a*b + a + b + 1 := by ring
  rw [Nat.succ_eq_add_one,Nat.succ_eq_add_one,hprod]
  omega

/-- The cursor visits as many slots as there are entries only for entries of one byte, or where
there are no more than two of them. -/
lemma le_slots_iff : n ≤ slots n s ↔ s = 1 ∨ n ≤ 2 := by
  obtain ⟨a,rfl⟩ := Nat.exists_eq_succ_of_ne_zero hn.ne'
  obtain ⟨b,rfl⟩ := Nat.exists_eq_succ_of_ne_zero hs.ne'
  have hprod : a*(b + 1) = a*b + a := by ring
  have hsum : a.succ + b.succ - 2 = b + a := by omega
  unfold slots
  rw [Nat.succ_le_succ_iff,Nat.le_div_iff_mul_le hs,Nat.succ_eq_add_one b,hprod,hsum,
    Nat.add_le_add_iff_right]
  constructor
  · intro h
    rcases Nat.eq_zero_or_pos b with hb | hb
    · exact .inl (by omega)
    · have ha : a ≤ 1 := Nat.le_of_mul_le_mul_right (by rwa [Nat.one_mul]) hb
      exact .inr (by omega)
  · rintro (hb | ha)
    · have hb : b = 0 := by omega
      rw [hb,Nat.mul_zero]
    · have ha : a ≤ 1 := by omega
      exact (Nat.mul_le_mul_right b ha).trans_eq (Nat.one_mul b)

end Slots

section Writes
variable {n s : U64} (hn : 0 < n.toNat) (hs : 0 < s.toNat) (hsize : n.toNat * s.toNat < 2^31)
include hn hs

lemma slot_inside (i : ℕ) :
    s.toNat * (i % slots n.toNat s.toNat) + s.toNat ≤ n.toNat * s.toNat := by
  have hlt : i % slots n.toNat s.toNat < n.toNat :=
    lt_of_lt_of_le (Nat.mod_lt i (Nat.succ_pos _)) (slots_le hn hs)
  rw [← Nat.mul_succ,Nat.mul_comm n.toNat]
  exact Nat.mul_le_mul_left _ hlt

include hsize

lemma Written.entry_eq {i : ℕ} {carray : Carray} (h : Written n s i carray) :
    entry carray = s.toNat * (i % slots n.toNat s.toNat) := by
  have hle := slot_inside hn hs i
  have hpos : ¬ 2^31 ≤ carray.idx.toNat := by
    rw [h.idx]
    omega
  rw [entry,BitVec.toNat_signExtend,BitVec.toNat_setWidth,BitVec.msb_eq_decide,← h.idx]
  simp only [Nat.add_one_sub_one,hpos,decide_false,Bool.false_eq_true,if_false]
  omega

lemma Written.step {i : ℕ} {carray : Carray} (h : Written n s i carray) (bucket : Memory) :
    Written n s (i+1) (writeClist carray bucket) := by
  have hentry := h.entry_eq hn hs hsize
  have hle := slot_inside hn hs i
  have hlen : (carray.len - 1).toNat = n.toNat - 1 := by
    rw [h.len,BitVec.toNat_sub]
    have hlt := n.isLt
    have hone : (1 : U64).toNat = 1 := rfl
    omega
  refine ⟨h.stride,h.len,?_⟩
  unfold entry at hentry
  simp only [writeClist,BitVec.lt_def,hentry,hlen,mul_lt_iff hn hs]
  rw [← Nat.mod_add_mod i (slots n.toNat s.toNat) 1]
  split
  · rename_i hnext
    rw [Nat.mod_eq_of_lt hnext,BitVec.toNat_setWidth,BitVec.toNat_add,hentry,h.stride,Nat.mul_succ]
    omega
  · rename_i hlast
    have hr : i % slots n.toNat s.toNat < slots n.toNat s.toNat := Nat.mod_lt i (Nat.succ_pos _)
    have hround : i % slots n.toNat s.toNat + 1 = slots n.toNat s.toNat := by omega
    rw [hround,Nat.mod_self]
    rfl

end Writes

lemma written_init {n s : U64} {mem : Memory} {carray : Carray}
    (hl : initClist (some mem) n s = some carray) : Written n s 0 carray := by
  obtain rfl := Option.some.inj hl
  exact ⟨rfl,rfl,by simp⟩

/-- Three entries of two bytes: the third sample overwrites the first. -/
theorem third_overwrites_first :
    let carray : Carray := ⟨3,2,0,fun _ => 0⟩
    let buckets : List Memory := [fun _ => 1,fun _ => 2,fun _ => 3]
    ¬ Retains 3 2 (fun i => entry ((buckets.take i).foldl writeClist carray)) buckets
      (buckets.foldl writeClist carray).buf := by
  intro carray buckets h
  exact absurd (h.stored 0 (by decide) (by decide)) (by decide)

/-- The last `n` samples are kept exactly if an entry is one byte long, if there are no more than
two entries, or if so few samples are written that the cursor has not been reset yet. -/
theorem keeps_recent_iff {n s : U64} (hn : n ≠ 0) (hs : s ≠ 0) (hsize : n.toNat * s.toNat < 2^31)
    {mem : Memory} {carray : Carray} (hl : initClist (some mem) n s = some carray)
    (buckets : List Memory) :
    Retains n.toNat s.toNat (fun i => entry ((buckets.take i).foldl writeClist carray)) buckets
        (buckets.foldl writeClist carray).buf ↔
      s.toNat = 1 ∨ n.toNat ≤ 2 ∨ buckets.length ≤ (n.toNat + s.toNat - 2) / s.toNat + 1 := by
  have hn' : 0 < n.toNat := BitVec.toNat_pos_of_ne_zero hn
  have hs' : 0 < s.toNat := BitVec.toNat_pos_of_ne_zero hs
  have hentry : ∀ i, i < buckets.length →
      entry ((buckets.take i).foldl writeClist carray) =
        s.toNat * (i % slots n.toNat s.toNat) := by
    intro i hi
    have hw := foldl_take buckets (written_init hl) (fun _ _ _ bucket h =>
      h.step hn' hs' hsize bucket) i hi.le
    exact hw.entry_eq hn' hs' hsize
  rw [foldl_eq_writes writeClist Carray.buf entry buckets (fun carray => carray.stride = s)
    (written_init hl).stride (fun _ _ h => h) (fun l x h => by rw [writeClist_buf,h])]
  rw [retains_iff (c := slots n.toNat s.toNat) hs' (Nat.succ_pos _) ?_ ?_ ?_,
    le_slots_iff hn' hs',or_assoc]
  · rfl
  · intro i j hi hj
    rw [hentry i hi,hentry j hj,Nat.mul_right_inj hs'.ne']
  · intro i hi
    rw [hentry i hi]
    exact Nat.dvd_mul_right ..
  · intro i hi
    rw [hentry i hi]
    exact slot_inside hn' hs' i

/-- Five samples of one byte in three entries. -/
theorem keeps_recent_bytes :
    let carray : Carray := ⟨3,1,0,fun _ => 0⟩
    let buckets : List Memory := [fun _ => 1,fun _ => 2,fun _ => 3,fun _ => 4,fun _ => 5]
    Retains 3 1 (fun i => entry ((buckets.take i).foldl writeClist carray)) buckets
      (buckets.foldl writeClist carray).buf := by
  intro carray buckets
  exact (keeps_recent_iff (n := 3) (s := 1) (by decide) (by decide) (by decide)
    (rfl : initClist (some fun _ => 0) 3 1 = some carray) buckets).mpr (.inl (by decide))

/-- The cursor is at a slot of the buffer, and the copy of the next write stays in it. -/
structure Inside (n s : U64) (carray : Carray) : Prop where
  nonneg : 0 ≤ carray.idx.toInt
  multiple : (s.toNat : ℤ) ∣ carray.idx.toInt
  fits : carray.idx.toInt + s.toNat ≤ n.toNat * s.toNat
  entry : (entry carray : ℤ) = carray.idx.toInt
  copies : LockedArray.entry carray + carray.stride.toNat ≤ n.toNat * s.toNat

section Runs
variable {n s : U64} (hn : 0 < n.toNat) (hs : 0 < s.toNat) (hsize : n.toNat * s.toNat < 2^31)
  {carray : Carray} {i : ℕ}
include hn hs hsize

lemma Written.foldl (h : Written n s i carray) (buckets : List Memory) :
    Written n s (i + buckets.length) (buckets.foldl writeClist carray) := by
  induction buckets generalizing carray i with
  | nil => exact h
  | cons bucket buckets ih =>
    have hrest := ih (h.step hn hs hsize bucket)
    rwa [Nat.add_assoc,Nat.add_comm 1,← List.length_cons] at hrest

lemma Written.inside (h : Written n s i carray) : Inside n s carray := by
  have hle := slot_inside hn hs i
  have hentry := h.entry_eq hn hs hsize
  rw [← h.idx] at hle hentry
  have hint : carray.idx.toInt = carray.idx.toNat := by
    apply BitVec.toInt_eq_toNat_of_lt
    omega
  constructor
  · rw [hint]
    exact Int.natCast_nonneg _
  · rw [hint,h.idx]
    exact Int.natCast_dvd_natCast.mpr (Nat.dvd_mul_right ..)
  · rw [hint]
    exact_mod_cast hle
  · rw [hint,hentry]
  · rw [hentry,h.stride]
    exact hle

end Runs

/-- In every state that writes lead to, the cursor is a multiple of the stride with a slot of the
buffer behind it, and two copies of a run go to the same slot or to slots that share no byte. -/
theorem cursor_inside {n s : U64} (hn : n ≠ 0) (hs : s ≠ 0) (hsize : n.toNat * s.toNat < 2^31)
    {mem : Memory} {carray : Carray} (hl : initClist (some mem) n s = some carray)
    (buckets : List Memory) :
    (∀ m, Inside n s ((buckets.take m).foldl writeClist carray)) ∧
      ∀ i j,
        let d := entry ((buckets.take i).foldl writeClist carray)
        let e := entry ((buckets.take j).foldl writeClist carray)
        d = e ∨ Apart s.toNat d e := by
  have hn' : 0 < n.toNat := BitVec.toNat_pos_of_ne_zero hn
  have hs' : 0 < s.toNat := BitVec.toNat_pos_of_ne_zero hs
  have hwritten : ∀ m, Written n s (0 + (buckets.take m).length)
      ((buckets.take m).foldl writeClist carray) := fun m =>
    (written_init hl).foldl hn' hs' hsize _
  refine ⟨fun m => (hwritten m).inside hn' hs' hsize,fun i j => ?_⟩
  dsimp only
  rw [(hwritten i).entry_eq hn' hs' hsize,(hwritten j).entry_eq hn' hs' hsize]
  exact eq_or_apart_of_mul ..

/-- Four samples of eight bytes in an array of three entries. -/
theorem cursor_inside_words :
    let carray : Carray := ⟨3,8,0,fun _ => 0⟩
    let buckets : List Memory := [fun _ => 1,fun _ => 2,fun _ => 3,fun _ => 4]
    Inside 3 8 (buckets.foldl writeClist carray) := by
  intro carray buckets
  exact (cursor_inside (n := 3) (s := 8) (by decide) (by decide) (by decide)
    (rfl : initClist (some fun _ => 0) 3 8 = some carray) buckets).1 4

end PmuMin.LockedArray
