import PmuMin.Clist.PackedIndex

/-! When a read of the list ends: its loop waits while HEAD plus the number of entries is below
TAIL, and no step of its own changes that. -/
namespace PmuMin.NbBoundedList
open Machine

def Outcome.hasReturned : Outcome → Bool
  | returned _ => true
  | overrun => false

lemma any_hasReturned_iff {o : Option Outcome} :
    o.any Outcome.hasReturned = true ↔ ∃ out, o = some (.returned out) := by
  rcases o with _ | outcome
  · exact iff_of_false Bool.false_ne_true fun ⟨_,hout⟩ => by cases hout
  · cases outcome with
    | returned out => exact iff_of_true rfl ⟨out,rfl⟩
    | overrun => exact iff_of_false Bool.false_ne_true fun ⟨_,hout⟩ => by cases hout

/-- A `read_clist` that nobody else interferes with returns. -/
def Returns (l : Nbblist) : Prop :=
  ∃ fuel, (readClist fuel l []).any Outcome.hasReturned = true

/-- TAIL is within `len` of HEAD, as the loop of `read_clist` tests it. -/
def Within (len idx : U64) : Prop := ¬ HEAD idx + len < TAIL idx

instance (len idx : U64) : Decidable (Within len idx) := inferInstanceAs (Decidable (¬ _))

/-- The loop is left at its first test or never, and the copy, if there is anything to copy, must
not run over the frame. -/
theorem returns_iff (l : Nbblist) : Returns l ↔
    Within l.len l.idx ∧ (HEAD l.idx = TAIL l.idx ∨ ¬ sizeofPointer < l.stride) := by
  constructor
  · rintro ⟨fuel,hsome⟩
    obtain ⟨out,hout⟩ := any_hasReturned_iff.mp hsome
    refine ⟨fun hwait => ?_,(readClist_returned hout).imp And.left fun h => h.2.1⟩
    cases fuel with
    | zero => cases hout
    | succ fuel =>
      rw [readClist,awaitIndex_eq_none hwait] at hout
      cases hout
  · rintro ⟨hwithin,hshort⟩
    refine ⟨2,?_⟩
    have hawait : awaitIndex 1 l = some l.idx := if_neg hwithin
    rw [readClist,hawait,Option.bind_some]
    split
    · rfl
    · rename_i hne
      rw [if_neg (hshort.resolve_left hne),if_pos rfl]
      rfl

/-- A call of the run is over. -/
def Completed (l : Nbblist) : Op → Prop
  | .write _ => True
  | .read fuel => (readClist fuel l []).any Outcome.hasReturned = true

instance (l : Nbblist) : DecidablePred (Completed l)
  | .write _ => inferInstanceAs (Decidable True)
  | .read fuel =>
    inferInstanceAs (Decidable ((readClist fuel l []).any Outcome.hasReturned = true))

/-- What a completed read leaves of the list. -/
lemma Completed.call_read {l : Nbblist} {fuel : ℕ} (hop : Completed l (.read fuel)) :
    (HEAD l.idx = TAIL l.idx ∧ call l (.read fuel) = l) ∨
      (HEAD l.idx ≠ TAIL l.idx ∧
        call l (.read fuel) = { l with idx := l.idx + l.stride <<< 32 }) := by
  obtain ⟨out,hout⟩ := any_hasReturned_iff.mp hop
  rw [call,hout]
  rcases readClist_returned hout with ⟨hempty,rfl⟩ | ⟨hne,-,rfl⟩
  · exact .inl ⟨hempty,rfl⟩
  · exact .inr ⟨hne,rfl⟩

/-- A write to a list that is not full does not step over the mark `HEAD + len`, or it wraps TAIL,
behind the mark again unless HEAD wraps with it. A read that takes an entry does not wrap HEAD, or
the mark still lies before TAIL. -/
def Room (l : Nbblist) : Op → Prop
  | .write _ =>
    let mark := (HEAD l.idx).toNat + l.len.toNat
    let next := (TAIL l.idx).toNat + l.stride.toNat
    mark = (TAIL l.idx).toNat ∨ next ≤ mark ∨
      2^32 ≤ next ∧ ((HEAD l.idx).toNat + 1 < 2^32 ∨ next ≤ 2^32 + l.len.toNat)
  | .read _ =>
    let next := (HEAD l.idx).toNat + l.stride.toNat
    (HEAD l.idx).toNat = (TAIL l.idx).toNat ∨ next < 2^32 ∨
      (TAIL l.idx).toNat + 2^32 ≤ next + l.len.toNat

/-- Samples that were written and not read since, as the calls alone tell. -/
def unread (d : ℕ) : Op → ℕ
  | .write _ => d + 1
  | .read _ => d - 1

section Marks
variable {l : Nbblist} (hn : l.len.toNat + 2^32 ≤ 2^64)
include hn

lemma within_iff (idx : U64) :
    Within l.len idx ↔ (TAIL idx).toNat ≤ (HEAD idx).toNat + l.len.toNat := by
  have hhead := HEAD_lt idx
  rw [Within,BitVec.lt_def,BitVec.toNat_add,Nat.mod_eq_of_lt (by omega),not_lt]

lemma full_iff_mark :
    Full l ↔ (HEAD l.idx).toNat + l.len.toNat = (TAIL l.idx).toNat := by
  have hhead := HEAD_lt l.idx
  rw [Full,← BitVec.toNat_inj,BitVec.toNat_add,Nat.mod_eq_of_lt (by omega)]

variable (hs : l.stride.toNat < 2^32) (h : Within l.len l.idx)
include hs h

/-- A write leaves TAIL within `len` of HEAD exactly if it has room. -/
lemma within_write_iff (bucket : Memory) :
    Within l.len (writeClist l bucket).idx ↔ Room l (.write bucket) := by
  have htail := TAIL_lt l.idx
  have hhead := HEAD_lt l.idx
  rw [within_iff hn] at h
  have hmark := full_iff_mark hn
  have hdiv : ((TAIL l.idx).toNat + l.stride.toNat) / 2^32 =
      if (TAIL l.idx).toNat + l.stride.toNat < 2^32 then 0 else 1 := by
    split
    · exact Nat.div_eq_of_lt ‹_›
    · omega
  rw [within_iff hn (writeClist l bucket).idx,TAIL_writeClist,HEAD_writeClist,Room,hdiv]
  split_ifs with hfits hfull hfull
  -- HEAD keeps up with TAIL in a full list
  · refine iff_of_true ?_ (.inl (hmark.mp hfull))
    have heq := hmark.mp hfull
    omega
  · rw [or_iff_right (mt hmark.mpr hfull)]
    omega
  · refine iff_of_true ?_ (.inl (hmark.mp hfull))
    have heq := hmark.mp hfull
    omega
  · rw [or_iff_right (mt hmark.mpr hfull)]
    omega

/-- So does a read that takes an entry. -/
lemma within_read_iff (hne : HEAD l.idx ≠ TAIL l.idx) (fuel : ℕ) :
    Within l.len (l.idx + l.stride <<< 32) ↔ Room l (.read fuel) := by
  have htail := TAIL_lt l.idx
  have hhead := HEAD_lt l.idx
  have hne' : (HEAD l.idx).toNat ≠ (TAIL l.idx).toNat := fun heq => hne (BitVec.eq_of_toNat_eq heq)
  rw [within_iff hn] at h
  rw [within_iff hn,toNat_TAIL_add_shift,toNat_HEAD_add_shift,Room,or_iff_right hne']
  omega

end Marks

section Runs
variable {n s : U64} {l : Nbblist} {ops : List Op}

lemma short_iff : ¬ sizeofPointer < s ↔ s.toNat ≤ 8 := by
  rw [BitVec.not_lt,BitVec.le_def]
  rfl

/-- With short entries, a completed call that starts where a read would return leads to such a
state again exactly if it finds room. -/
theorem returns_call_iff (hn : l.len.toNat + 2^32 ≤ 2^64) (hs : l.stride.toNat ≤ 8) {op : Op}
    (hop : Completed l op) (h : Within l.len l.idx) : Returns (call l op) ↔ Room l op := by
  have hlt : l.stride.toNat < 2^32 := hs.trans_lt (by decide)
  rw [returns_iff,call_len,call_stride,and_iff_left (.inr (short_iff.mpr hs))]
  cases op with
  | write bucket => exact within_write_iff hn hlt h bucket
  | read fuel =>
    rcases hop.call_read with ⟨hempty,hcall⟩ | ⟨hne,hcall⟩
    · rw [hcall]
      exact iff_of_true h (.inl (congrArg BitVec.toNat hempty))
    · rw [hcall]
      exact within_read_iff hn hlt h hne fuel

/-- Reads of short entries return in every state of exactly those runs whose calls find room. -/
lemma returns_run_iff (hn : l.len.toNat + 2^32 ≤ 2^64) (hs : l.stride.toNat ≤ 8)
    (hrun : Admits call Completed l ops) (h : Within l.len l.idx) :
    (∀ m, Returns ((ops.take m).foldl call l)) ↔ Admits call Room l ops := by
  have hreturns : Returns l := (returns_iff l).mpr ⟨h,.inr (short_iff.mpr hs)⟩
  rw [forall_take_iff,and_iff_right hreturns]
  refine admits_iff_admits (I := fun l : Nbblist =>
    l.len.toNat + 2^32 ≤ 2^64 ∧ l.stride.toNat ≤ 8 ∧ Within l.len l.idx) ?_ ?_ ⟨hn,hs,h⟩ hrun
  · rintro l op ⟨hn,hs,hl⟩ hop
    exact returns_call_iff hn hs hop hl
  · rintro l op ⟨hn,hs,hl⟩ hop hroom
    have hnext := ((returns_iff _).mp ((returns_call_iff hn hs hop hl).mpr hroom)).1
    rw [call_len] at hnext ⊢
    rw [call_stride]
    exact ⟨hn,hs,hnext⟩

/-- Reads leave an empty list as it is, however long its entries are. -/
lemma call_of_no_write (hempty : HEAD l.idx = TAIL l.idx) (hrun : Admits call Completed l ops)
    (hnone : ops.countP Op.isWrite = 0) :
    Admits call Room l ops ∧ (∀ m, (ops.take m).foldl call l = l) ∧
      ∀ m, (ops.take m).foldl unread 0 = 0 := by
  induction ops with
  | nil => exact ⟨trivial,fun m => by rw [List.take_nil]; rfl,fun m => by rw [List.take_nil]; rfl⟩
  | cons op ops ih =>
    obtain ⟨hop,hops⟩ := hrun
    cases op with
    | write bucket =>
      rw [List.countP_cons_of_pos rfl] at hnone
      exact absurd hnone (Nat.succ_ne_zero _)
    | read fuel =>
      rw [List.countP_cons_of_neg (by simp [Op.isWrite])] at hnone
      obtain ⟨-,hcall⟩ := hop.call_read.resolve_right fun h => h.1 hempty
      rw [hcall] at hops
      obtain ⟨hroom,hsame,hunread⟩ := ih hops hnone
      refine ⟨⟨.inl (congrArg BitVec.toNat hempty),?_⟩,fun m => ?_,fun m => ?_⟩
      · rw [hcall]
        exact hroom
      · cases m with
        | zero => rfl
        | succ m =>
          rw [List.take_succ_cons,List.foldl_cons,hcall]
          exact hsame m
      · cases m with
        | zero => rfl
        | succ m => exact hunread m

/-- After the first write of a long entry a read runs over its frame. -/
lemma no_write_of_returns (hn : n ≠ 0) (hs : s.toNat < 2^32) (hlong : ¬ s.toNat ≤ 8)
    (hstride : l.stride = s) (hlen : l.len = n) (hidx : l.idx = 0)
    (hrun : Admits call Completed l ops) (h : ∀ m, Returns ((ops.take m).foldl call l)) :
    ops.countP Op.isWrite = 0 := by
  have hempty : HEAD l.idx = TAIL l.idx := hidx ▸ HEAD_eq_TAIL_zero
  induction ops with
  | nil => rfl
  | cons op ops ih =>
    obtain ⟨hop,hops⟩ := hrun
    cases op with
    | read fuel =>
      obtain ⟨-,hcall⟩ := hop.call_read.resolve_right fun h => h.1 hempty
      rw [hcall] at hops
      rw [List.countP_cons_of_neg (by simp [Op.isWrite])]
      refine ih hops fun m => ?_
      have hnext := h (m+1)
      rwa [List.take_succ_cons,List.foldl_cons,hcall] at hnext
    | write bucket =>
      exfalso
      have hwritten := ((returns_iff _).mp (h 1)).2
      have hfull : ¬ Full l := fun hfull => hn (by
        rw [Full,hempty,hlen] at hfull
        exact BitVec.add_right_eq_self.mp hfull)
      have hzero : (TAIL (0 : U64)).toNat = 0 ∧ (HEAD (0 : U64)).toNat = 0 := by decide
      rw [List.take_succ_cons,List.take_zero,List.foldl_cons,List.foldl_nil,call_stride,hstride,
        short_iff,or_iff_left hlong,call,← BitVec.toNat_inj,TAIL_writeClist,HEAD_writeClist,
        if_neg hfull,hidx,hzero.1,hzero.2,hstride,Nat.zero_add,Nat.zero_add,Nat.add_zero,
        Nat.div_eq_of_lt hs,Nat.mod_eq_of_lt hs,Nat.zero_mod] at hwritten
      omega

end Runs

/-- A list that holds `d` samples, with nothing about to wrap. -/
structure Holds (n s : U64) (d : ℕ) (l : Nbblist) : Prop where
  stride : l.stride = s
  len : l.len = n
  ahead : (TAIL l.idx).toNat = (HEAD l.idx).toNat + d * s.toNat
  fits : d * s.toNat ≤ n.toNat

section Holds
variable {n s : U64} {d : ℕ} {l : Nbblist}

lemma Holds.sum (h : Holds n s d l) (hn : n.toNat + 2^32 ≤ 2^64) :
    (HEAD l.idx + l.len).toNat = (HEAD l.idx).toNat + n.toNat := by
  have hhead := HEAD_lt l.idx
  rw [BitVec.toNat_add,h.len]
  omega

lemma Holds.TAIL_write (h : Holds n s d l) (hwrap : (TAIL l.idx).toNat + s.toNat < 2^32)
    (bucket : Memory) :
    (TAIL (call l (.write bucket)).idx).toNat = (TAIL l.idx).toNat + s.toNat := by
  rw [call,TAIL_writeClist,h.stride,Nat.mod_eq_of_lt hwrap]

lemma Holds.full_iff (h : Holds n s d l) (hn : n.toNat + 2^32 ≤ 2^64) :
    Full l ↔ d * s.toNat = n.toNat := by
  rw [Full,← BitVec.toNat_inj,h.sum hn,h.ahead]
  omega

lemma Holds.empty_iff (h : Holds n s d l) (hs : s ≠ 0) : HEAD l.idx = TAIL l.idx ↔ d = 0 := by
  have hpos : 0 < s.toNat := BitVec.toNat_pos_of_ne_zero hs
  rw [← BitVec.toNat_inj,h.ahead]
  constructor
  · intro heq
    have hzero : d * s.toNat = 0 := by omega
    exact (Nat.mul_eq_zero.mp hzero).resolve_right hpos.ne'
  · rintro rfl
    rw [Nat.zero_mul,Nat.add_zero]

lemma Holds.room_write_iff (h : Holds n s d l) (hwrap : (TAIL l.idx).toNat + s.toNat < 2^32) (bucket : Memory) :
    Room l (.write bucket) ↔ d * s.toNat = n.toNat ∨ (d+1) * s.toNat ≤ n.toNat := by
  have hhead := HEAD_lt l.idx
  have hahead := h.ahead
  rw [Room,h.stride,h.len,Nat.succ_mul]
  omega

lemma Holds.room_read (h : Holds n s d l) (fuel : ℕ) : Room l (.read fuel) := by
  have htail := TAIL_lt l.idx
  have hahead := h.ahead
  rw [Room,h.stride]
  rcases d with _ | d
  · left
    omega
  · rw [Nat.succ_mul] at hahead
    right
    left
    omega

/-- A write into a list that is not full adds a sample. -/
lemma Holds.write (h : Holds n s d l) (hn : n.toNat + 2^32 ≤ 2^64)
    (hwrap : (TAIL l.idx).toNat + s.toNat < 2^32) (hroom : (d+1) * s.toNat ≤ n.toNat)
    (hs : s ≠ 0) (bucket : Memory) : Holds n s (d+1) (call l (.write bucket)) := by
  have hpos : 0 < s.toNat := BitVec.toNat_pos_of_ne_zero hs
  have hhead := HEAD_lt l.idx
  have hahead := h.ahead
  have hfull : ¬ Full l := by
    rw [h.full_iff hn]
    rw [Nat.succ_mul] at hroom
    omega
  refine ⟨h.stride,h.len,?_,hroom⟩
  rw [h.TAIL_write hwrap,call,HEAD_writeClist,if_neg hfull,h.stride,Nat.div_eq_of_lt hwrap,
    Nat.succ_mul]
  omega

/-- A write into a full list gives one sample up. -/
lemma Holds.overwrite (h : Holds n s d l) (hn : n.toNat + 2^32 ≤ 2^64)
    (hwrap : (TAIL l.idx).toNat + s.toNat < 2^32) (hfull : d * s.toNat = n.toNat)
    (bucket : Memory) : Holds n s d (call l (.write bucket)) := by
  have hahead := h.ahead
  refine ⟨h.stride,h.len,?_,h.fits⟩
  rw [h.TAIL_write hwrap,call,HEAD_writeClist,if_pos ((h.full_iff hn).mpr hfull),h.stride,
    Nat.div_eq_of_lt hwrap]
  omega

/-- A read takes the oldest sample, if there is one. -/
lemma Holds.read (h : Holds n s d l) (hs : s ≠ 0) {fuel : ℕ} (hop : Completed l (.read fuel)) :
    Holds n s (d-1) (call l (.read fuel)) := by
  rcases hop.call_read with ⟨hempty,hcall⟩ | ⟨hne,hcall⟩
  · obtain rfl := (h.empty_iff hs).mp hempty
    rw [hcall]
    exact h
  · rw [hcall]
    obtain ⟨d,rfl⟩ := Nat.exists_eq_succ_of_ne_zero (mt (h.empty_iff hs).mpr hne)
    have htail := TAIL_lt l.idx
    have hahead := h.ahead
    have hfits := h.fits
    rw [Nat.succ_mul] at hahead hfits
    have hwrap : (HEAD l.idx).toNat + s.toNat < 2^32 := by omega
    refine ⟨h.stride,h.len,?_,?_⟩
    · dsimp only
      rw [toNat_TAIL_add_shift,toNat_HEAD_add_shift,h.stride,Nat.mod_eq_of_lt hwrap]
      exact hahead.trans (by rw [Nat.succ_sub_one]; omega)
    · rw [Nat.succ_sub_one]
      omega

end Holds

/-- Lists whose entry count is a multiple of the entry size are hit exactly when they are full,
so their reads end. -/
lemma admits_room_of_dvd {n s : U64} (hn : n.toNat + 2^32 ≤ 2^64) (hs : s ≠ 0)
    (hdvd : s.toNat ∣ n.toNat) {l : Nbblist} {d : ℕ} (h : Holds n s d l) {ops : List Op}
    (hrun : Admits call Completed l ops)
    (hwrap : (TAIL l.idx).toNat + ops.countP Op.isWrite * s.toNat < 2^32) :
    Admits call Room l ops := by
  induction ops generalizing l d with
  | nil => trivial
  | cons op ops ih =>
    obtain ⟨hop,hops⟩ := hrun
    cases op with
    | read fuel =>
      rw [List.countP_cons_of_neg (by simp [Op.isWrite])] at hwrap
      refine ⟨h.room_read fuel,ih (h.read hs hop) hops ?_⟩
      rwa [TAIL_call_read]
    | write bucket =>
      rw [List.countP_cons_of_pos rfl,Nat.succ_mul] at hwrap
      have hfits : (TAIL l.idx).toNat + s.toNat < 2^32 := by omega
      have hroom : d * s.toNat = n.toNat ∨ (d+1) * s.toNat ≤ n.toNat := by
        obtain ⟨k,hk⟩ := hdvd
        have hfit := h.fits
        rw [hk,Nat.mul_comm s.toNat] at hfit ⊢
        have hpos : 0 < s.toNat := BitVec.toNat_pos_of_ne_zero hs
        rcases (Nat.le_of_mul_le_mul_right hfit hpos).eq_or_lt with rfl | hlt
        · exact .inl rfl
        · exact .inr (Nat.mul_le_mul_right _ hlt)
      have htail := h.TAIL_write hfits bucket
      refine ⟨(h.room_write_iff hfits bucket).mpr hroom,?_⟩
      rcases hroom with hfull | hroom
      · exact ih (h.overwrite hn hfits hfull bucket) hops (by rw [htail]; omega)
      · exact ih (h.write hn hfits hroom hs bucket) hops (by rw [htail]; omega)

/-- Any other list never counts as full, so that it has room for `n / s` samples only. -/
lemma admits_room_iff_unread {n s : U64} (hn : n.toNat + 2^32 ≤ 2^64) (hs : s ≠ 0)
    (hdvd : ¬ s.toNat ∣ n.toNat) {l : Nbblist} {d : ℕ} (h : Holds n s d l) {ops : List Op}
    (hrun : Admits call Completed l ops)
    (hwrap : (TAIL l.idx).toNat + ops.countP Op.isWrite * s.toNat < 2^32) :
    Admits call Room l ops ↔
      Admits unread (fun d op => unread d op ≤ n.toNat / s.toNat) d ops := by
  induction ops generalizing l d with
  | nil => rfl
  | cons op ops ih =>
    obtain ⟨hop,hops⟩ := hrun
    have hpos : 0 < s.toNat := BitVec.toNat_pos_of_ne_zero hs
    rw [Admits,Admits]
    cases op with
    | read fuel =>
      rw [List.countP_cons_of_neg (by simp [Op.isWrite])] at hwrap
      have hle : d ≤ n.toNat / s.toNat := (Nat.le_div_iff_mul_le hpos).mpr h.fits
      refine and_congr (iff_of_true (h.room_read fuel) ?_) (ih (h.read hs hop) hops ?_)
      · exact (Nat.sub_le d 1).trans hle
      · rwa [TAIL_call_read]
    | write bucket =>
      rw [List.countP_cons_of_pos rfl,Nat.succ_mul] at hwrap
      have hfits : (TAIL l.idx).toNat + s.toNat < 2^32 := by omega
      have hfull : d * s.toNat ≠ n.toNat := fun hfull => hdvd ⟨d,by rw [← hfull,Nat.mul_comm]⟩
      rw [h.room_write_iff hfits bucket,or_iff_right hfull,unread,
        Nat.le_div_iff_mul_le hpos]
      refine and_congr_right fun hroom => ih (h.write hn hfits hroom hs bucket) hops ?_
      rw [h.TAIL_write hfits]
      omega

/-- One entry of two bytes: after a single write TAIL is two ahead of HEAD, and the list has
length one, so that a read waits for ever. -/
theorem one_entry_waits :
    let l : Nbblist := ⟨2,1,0,fun _ => 0,26⟩
    initClist (some fun _ => 0) 1 2 = some l ∧
      Admits call Completed l [.write fun _ => 7] ∧
      ¬ ∀ m, Returns (([.write fun _ => 7].take m).foldl call l) := by
  refine ⟨rfl,⟨trivial,trivial⟩,fun h => ?_⟩
  exact absurd ((returns_iff _).mp (h 1)).1 (by decide)

/-- Entries that can be read at all, and calls that find room. -/
def Serves (n s : U64) (l : Nbblist) (ops : List Op) : Prop :=
  n.toNat + 2^32 ≤ 2^64 ∧ (s.toNat ≤ 8 ∨ ops.countP Op.isWrite = 0) ∧ Admits call Room l ops

section New
variable {n s : U64} {l : Nbblist} {ops : List Op} (hstride : l.stride = s) (hlen : l.len = n)
  (hidx : l.idx = 0) (hrun : Admits call Completed l ops)
include hidx

lemma empty_of_new : HEAD l.idx = TAIL l.idx := hidx ▸ HEAD_eq_TAIL_zero

lemma within_of_new : Within l.len l.idx := by
  have hzero : HEAD 0 = 0 := by decide
  rw [Within,← empty_of_new hidx,hidx,hzero]
  exact BitVec.not_lt_zero

include hrun

lemma returns_of_no_write (hnone : ops.countP Op.isWrite = 0) (m : ℕ) :
    Returns ((ops.take m).foldl call l) := by
  rw [(call_of_no_write (empty_of_new hidx) hrun hnone).2.1 m]
  exact (returns_iff _).mpr ⟨within_of_new hidx,.inl (empty_of_new hidx)⟩

include hstride hlen

lemma returns_of_serves (h : Serves n s l ops) (m : ℕ) : Returns ((ops.take m).foldl call l) := by
  obtain ⟨hsum,hle | hno,hroom⟩ := h
  · rw [← hlen] at hsum
    rw [← hstride] at hle
    exact (returns_run_iff hsum hle hrun (within_of_new hidx)).mpr hroom m
  · exact returns_of_no_write hidx hrun hno m

lemma serves_of_returns (hn : n ≠ 0) (hsum : n.toNat + 2^32 ≤ 2^64) (hs : s.toNat < 2^32)
    (h : ∀ m, Returns ((ops.take m).foldl call l)) : Serves n s l ops := by
  by_cases hle : s.toNat ≤ 8
  · refine ⟨hsum,.inl hle,?_⟩
    rw [← hlen] at hsum
    rw [← hstride] at hle
    exact (returns_run_iff hsum hle hrun (within_of_new hidx)).mp h
  · have hno := no_write_of_returns hn hs hle hstride hlen hidx hrun h
    exact ⟨hsum,.inr hno,(call_of_no_write (empty_of_new hidx) hrun hno).1⟩

/-- Where nothing wraps, the calls alone tell. -/
lemma returns_iff_unread (hn : n ≠ 0) (hs : s ≠ 0) (hsum : n.toNat + 2^32 ≤ 2^64)
    (hwrap : ops.countP Op.isWrite * s.toNat < 2^32) :
    (∀ m, Returns ((ops.take m).foldl call l)) ↔
      (s.toNat ≤ 8 ∨ ops.countP Op.isWrite = 0) ∧
        (s.toNat ∣ n.toNat ∨ ∀ m, (ops.take m).foldl unread 0 ≤ n.toNat / s.toNat) := by
  have hzero : (TAIL 0).toNat = 0 ∧ (HEAD 0).toNat = 0 := by decide
  have hholds : Holds n s 0 l := by
    refine ⟨hstride,hlen,?_,?_⟩
    · rw [hidx,hzero.1,hzero.2,Nat.zero_mul]
    · rw [Nat.zero_mul]
      exact Nat.zero_le _
  have htail : (TAIL l.idx).toNat + ops.countP Op.isWrite * s.toNat < 2^32 := by
    rwa [hidx,hzero.1,Nat.zero_add]
  rcases Nat.eq_zero_or_pos (ops.countP Op.isWrite) with hno | hwrites
  · refine iff_of_true (returns_of_no_write hidx hrun hno) ⟨.inr hno,.inr fun m => ?_⟩
    rw [(call_of_no_write (empty_of_new hidx) hrun hno).2.2 m]
    exact Nat.zero_le _
  · rw [or_iff_left hwrites.ne']
    by_cases hle : s.toNat ≤ 8
    · have hrooms := returns_run_iff (hlen ▸ hsum) (hstride ▸ hle) hrun (within_of_new hidx)
      rw [and_iff_right hle,hrooms]
      by_cases hdvd : s.toNat ∣ n.toNat
      · exact iff_of_true (admits_room_of_dvd hsum hs hdvd hholds hrun htail) (.inl hdvd)
      · rw [or_iff_right hdvd,forall_take_iff (I := fun d => d ≤ n.toNat / s.toNat),
          and_iff_right (Nat.zero_le _)]
        exact admits_room_iff_unread hsum hs hdvd hholds hrun htail
    · have hlt : s.toNat < 2^32 := (Nat.le_mul_of_pos_left _ hwrites).trans_lt hwrap
      refine iff_of_false (fun h => ?_) fun h => hle h.1
      exact hwrites.ne' (no_write_of_returns hn hlt hle hstride hlen hidx hrun h)

end New

/-- A read returns in every state of a run of short entries whose calls find room, and otherwise,
with sizes that do not wrap, it does not. As long as nothing wraps, this says that the entry size
divides the entry count or that no more than their quotient of samples is ever left unread. -/
theorem read_returns_iff {n s : U64} (hn : n ≠ 0) (hs : s ≠ 0) {mem : Memory} {l : Nbblist}
    (hl : initClist (some mem) n s = some l) {ops : List Op}
    (hrun : Admits call Completed l ops) :
    (Serves n s l ops → ∀ m, Returns ((ops.take m).foldl call l)) ∧
      (n.toNat + 2^32 ≤ 2^64 → s.toNat < 2^32 →
        (∀ m, Returns ((ops.take m).foldl call l)) → Serves n s l ops) ∧
      (n.toNat + 2^32 ≤ 2^64 → ops.countP Op.isWrite * s.toNat < 2^32 →
        ((∀ m, Returns ((ops.take m).foldl call l)) ↔
          (s.toNat ≤ 8 ∨ ops.countP Op.isWrite = 0) ∧
            (s.toNat ∣ n.toNat ∨ ∀ m, (ops.take m).foldl unread 0 ≤ n.toNat / s.toNat))) := by
  have hnew : l.stride = s ∧ l.len = n ∧ l.idx = 0 := by
    obtain rfl := Option.some.inj hl
    exact ⟨rfl,rfl,rfl⟩
  obtain ⟨hstride,hlen,hidx⟩ := hnew
  exact ⟨returns_of_serves hstride hlen hidx hrun,
    fun hsum hlt h => serves_of_returns hstride hlen hidx hrun hn hsum hlt h,
    fun hsum hwrap => returns_iff_unread hstride hlen hidx hrun hn hs hsum hwrap⟩

/-- Two entries of one byte, written, read and written again. -/
theorem read_returns_served :
    let ops : List Op := [.write fun _ => 7,.read 2,.write fun _ => 8]
    Admits call Completed ⟨1,2,0,fun _ => 0,26⟩ ops ∧
      ∀ m, Returns ((ops.take m).foldl call ⟨1,2,0,fun _ => 0,26⟩) :=
  have hrun : Admits call Completed ⟨1,2,0,fun _ => 0,26⟩
      [.write fun _ => 7,.read 2,.write fun _ => 8] := by decide
  have hl : initClist (some fun _ => 0) 2 1 = some ⟨1,2,0,fun _ => 0,26⟩ := rfl
  ⟨hrun,((read_returns_iff (by decide) (by decide) hl hrun).2.2 (by decide) (by decide)).mpr
    ⟨.inl (by decide),.inl (by decide)⟩⟩

end PmuMin.NbBoundedList
