import PmuMin.Clist.PackedIndex
import PmuMin.Library.SlotBuffer

/-! The writer's side of `nbboundedlist.c`: which slots the samples go to, and which of them are
still there after the last write. -/
namespace PmuMin.NbBoundedList
open SlotBuffer

/-- The offset in `buf` at which the next `write_clist` stores its sample. -/
def entry (l : Nbblist) : ℕ := (l.stride * (TAIL l.idx % l.len)).toNat

theorem writeClist_buf (l : Nbblist) (bucket : Memory) :
    (writeClist l bucket).buf = store l.buf (entry l) l.stride.toNat bucket := rfl

/-- The list after `i` writes; TAIL counts their bytes. -/
structure Written (n s : U64) (i : ℕ) (l : Nbblist) : Prop where
  stride : l.stride = s
  len : l.len = n
  tail : l.idx.toNat % 2^32 = i * s.toNat

lemma Written.step {n s : U64} {i : ℕ} {l : Nbblist} (h : Written n s i l) (bucket : Memory)
    (hwrap : (i + 1) * s.toNat < 2^32) : Written n s (i+1) (writeClist l bucket) := by
  rw [Nat.succ_mul] at hwrap
  refine ⟨h.stride,h.len,?_⟩
  rw [← toNat_TAIL,TAIL_writeClist,toNat_TAIL,h.tail,h.stride,Nat.mod_eq_of_lt hwrap,Nat.succ_mul]

/-- The slot of the next sample: its number times the stride, in bytes and modulo the number of
entries. -/
lemma Written.entry_eq {n s : U64} {i : ℕ} {l : Nbblist} (h : Written n s i l)
    (hwrap : (i + 1) * s.toNat < 2^32) : entry l = s.toNat * (i * s.toNat % n.toNat) := by
  rw [Nat.succ_mul] at hwrap
  have hmod := Nat.mod_le (i * s.toNat) n.toNat
  have hs : s.toNat < 2^32 := by omega
  have hplace : i * s.toNat % n.toNat < 2^32 := by omega
  have hlt : s.toNat * (i * s.toNat % n.toNat) < 2^32 * 2^32 := Nat.mul_lt_mul'' hs hplace
  rw [entry,h.stride,h.len,BitVec.toNat_mul,BitVec.toNat_umod,toNat_TAIL,h.tail,
    Nat.mod_eq_of_lt (hlt.trans_eq (by decide))]

lemma written_init {n s : U64} {mem : Memory} {l : Nbblist} (hl : initClist (some mem) n s = some l) :
    Written n s 0 l := by
  obtain rfl := Option.some.inj hl
  exact ⟨rfl,rfl,by simp⟩

/-- How many bytes there are in `buf`. -/
def room (l : Nbblist) : ℕ := l.size.toNat - sizeofNbblist.toNat

lemma room_init {n s : U64} {mem : Memory} {l : Nbblist} (hl : initClist (some mem) n s = some l) :
    room l = (sizeofNbblist.toNat + n.toNat * s.toNat) % 2^64 - sizeofNbblist.toNat := by
  obtain rfl := Option.some.inj hl
  rw [room,BitVec.toNat_add,BitVec.toNat_mul,Nat.add_mod_mod]

/-- The size that `init_clist` computes does not wrap, or so few samples are written that they fit
into what it asks for all the same. -/
def Fits (n s k : ℕ) : Prop :=
  k = 0 ∨ sizeofNbblist.toNat + n*s < 2^64 ∨
    sizeofNbblist.toNat + ((k-1)*s + 1)*s ≤ (sizeofNbblist.toNat + n*s) % 2^64

instance (n s k : ℕ) : Decidable (Fits n s k) := inferInstanceAs (Decidable (_ ∨ _ ∨ _))

/-- The slots of the first samples lie inside the buffer exactly if they fit. -/
lemma slots_inside_iff {n s k : ℕ} (hn : 0 < n) (hs : 0 < s) (hwrap : k*s < 2^32) :
    (∀ i < k, s * (i*s % n) + s ≤
        (sizeofNbblist.toNat + n*s) % 2^64 - sizeofNbblist.toNat) ↔ Fits n s k := by
  have hsize : sizeofNbblist.toNat = 24 := rfl
  unfold Fits
  rw [hsize]
  rcases Nat.eq_zero_or_pos k with rfl | hk
  · exact iff_of_true (fun i hi => absurd hi (Nat.not_lt_zero i)) (.inl rfl)
  rcases Nat.lt_or_ge (24 + n*s) (2^64) with hlt | hge
  · refine iff_of_true (fun i _ => ?_) (.inr (.inl hlt))
    rw [Nat.mod_eq_of_lt hlt,Nat.add_sub_cancel_left,← Nat.mul_succ,Nat.mul_comm]
    exact Nat.mul_le_mul_right s (Nat.mod_lt _ hn)
  · -- there are so many entries that no slot is used twice
    have hslt : s < 2^32 := (Nat.le_mul_of_pos_left s hk).trans_lt hwrap
    have hnge : 2^32 ≤ n := by
      by_contra hnlt
      have hle : n*s ≤ (2^32 - 1)*(2^32 - 1) := Nat.mul_le_mul (by omega) (by omega)
      omega
    have hslot : ∀ i < k, s * (i*s % n) + s = (i*s + 1)*s := by
      intro i hi
      have hi' : i*s < n := ((Nat.mul_le_mul_right s hi.le).trans_lt hwrap).trans_le hnge
      rw [Nat.mod_eq_of_lt hi',Nat.succ_mul,Nat.mul_comm]
    rw [or_iff_right hk.ne',or_iff_right (not_lt.mpr hge)]
    constructor
    · intro h
      have hlast := h (k-1) (Nat.pred_lt hk.ne')
      rw [hslot (k-1) (Nat.pred_lt hk.ne')] at hlast
      have hpos : 0 < ((k-1)*s + 1)*s := Nat.mul_pos (Nat.succ_pos _) hs
      omega
    · intro h i hi
      have hle : (i*s + 1)*s ≤ ((k-1)*s + 1)*s :=
        Nat.mul_le_mul_right s (Nat.succ_le_succ (Nat.mul_le_mul_right s (Nat.le_pred_of_lt hi)))
      rw [hslot i hi]
      omega

section Writes
variable {n s : U64} {mem : Memory} {l : Nbblist} {buckets : List Memory}

lemma entry_take (hl : initClist (some mem) n s = some l)
    (hwrap : buckets.length * s.toNat < 2^32) {i : ℕ} (hi : i < buckets.length) :
    entry ((buckets.take i).foldl writeClist l) = s.toNat * (i * s.toNat % n.toNat) := by
  have hlt : ∀ i < buckets.length, (i + 1) * s.toNat < 2^32 := fun i hi =>
    lt_of_le_of_lt (Nat.mul_le_mul_right _ hi) hwrap
  have hw := foldl_take buckets (written_init hl) (fun i hi _ bucket h =>
    h.step bucket (hlt i hi)) i hi.le
  exact hw.entry_eq (hlt i hi)

lemma retains_writes_iff (hn : n ≠ 0) (hs : s ≠ 0) (hl : initClist (some mem) n s = some l)
    (hwrap : buckets.length * s.toNat < 2^32) :
    Retains n.toNat s.toNat (fun i => entry ((buckets.take i).foldl writeClist l)) buckets
        (buckets.foldl writeClist l).buf ↔
      n.toNat.Coprime s.toNat ∨ buckets.length ≤ n.toNat / n.toNat.gcd s.toNat := by
  have hn' : 0 < n.toNat := BitVec.toNat_pos_of_ne_zero hn
  have hs' : 0 < s.toNat := BitVec.toNat_pos_of_ne_zero hs
  rw [foldl_eq_writes writeClist Nbblist.buf entry buckets (fun l => l.stride = s)
    (written_init hl).stride (fun _ _ h => h) (fun l x h => by rw [writeClist_buf,h])]
  rw [retains_iff (c := n.toNat / n.toNat.gcd s.toNat) hs'
    (Nat.div_gcd_pos_of_pos_left s.toNat hn') ?_ ?_ ?_,le_div_gcd_iff hn']
  · intro i j hi hj
    rw [entry_take hl hwrap hi,entry_take hl hwrap hj,Nat.mul_right_inj hs'.ne',mul_mod_eq_iff hn']
  · intro i hi
    rw [entry_take hl hwrap hi]
    exact Nat.dvd_mul_right ..
  · intro i hi
    rw [entry_take hl hwrap hi,← Nat.mul_succ,Nat.mul_comm]
    exact Nat.mul_le_mul_right _ (Nat.mod_lt _ hn')

/-- Four entries of two bytes: the third sample overwrites the first. -/
theorem early_overwrite :
    let l : Nbblist := ⟨2,4,0,fun _ => 0,32⟩
    let buckets : List Memory := [fun _ => 1,fun _ => 2,fun _ => 3]
    initClist (some fun _ => 0) 4 2 = some l ∧
      ¬ Retains 4 2 (fun i => entry ((buckets.take i).foldl writeClist l)) buckets
        (buckets.foldl writeClist l).buf := by
  intro l buckets
  refine ⟨rfl,fun h => ?_⟩
  exact absurd (h.stored 0 (by decide) (by decide)) (by decide)

/-- The last `n` samples are kept in slots of `buf` exactly if `n` and the size of an entry have no
common divisor, or if so few samples are written that the slots have not come round yet; and if
the samples fit into the block, whose size wraps for very long lists. -/
theorem keeps_last_iff (hn : n ≠ 0) (hs : s ≠ 0) (hl : initClist (some mem) n s = some l)
    (hwrap : buckets.length * s.toNat < 2^32) :
    (Retains n.toNat s.toNat (fun i => entry ((buckets.take i).foldl writeClist l)) buckets
          (buckets.foldl writeClist l).buf ∧
        ∀ i < buckets.length, entry ((buckets.take i).foldl writeClist l) + s.toNat ≤ room l) ↔
      (n.toNat.Coprime s.toNat ∨ buckets.length ≤ n.toNat / n.toNat.gcd s.toNat) ∧
        Fits n.toNat s.toNat buckets.length := by
  refine and_congr (retains_writes_iff hn hs hl hwrap) ?_
  rw [room_init hl,← slots_inside_iff (BitVec.toNat_pos_of_ne_zero hn)
    (BitVec.toNat_pos_of_ne_zero hs) hwrap]
  refine forall₂_congr fun i hi => ?_
  rw [entry_take hl hwrap hi]

/-- Five samples of two bytes in a list of three entries: the last three are kept. -/
theorem keeps_last_coprime :
    let l : Nbblist := ⟨2,3,0,fun _ => 0,30⟩
    let buckets : List Memory := [fun _ => 1,fun _ => 2,fun _ => 3,fun _ => 4,fun _ => 5]
    Retains 3 2 (fun i => entry ((buckets.take i).foldl writeClist l)) buckets
        (buckets.foldl writeClist l).buf ∧
      ∀ i < 5, entry ((buckets.take i).foldl writeClist l) + 2 ≤ room l := by
  intro l buckets
  exact (keeps_last_iff (n := 3) (s := 2) (by decide) (by decide)
    (rfl : initClist (some fun _ => 0) 3 2 = some l) (by decide)).mpr ⟨.inl (by decide),by decide⟩

/-- `2^61` entries of eight bytes: the size wraps to that of an empty list, with no room for one. -/
example : ¬ Fits (2^61) 8 1 := by decide

end Writes
end PmuMin.NbBoundedList
