import PmuMin.Clist.PackedIndex
import PmuMin.Library.Update

/-! The list of `nbboundedlist.c` under calls that overlap: every access to `idx` and every copy
is a step of its own, and the threads take them in any order. -/
namespace PmuMin.NbBoundedList
open Machine

/-- What a thread does next. A store remembers how many positions were reserved at its load. -/
inductive Pc
  | idle
  -- write_clist
  | xadd (bucket : Memory)
  | copyIn (midx : U64) (bucket : Memory)
  | loadIdx
  | storeIdx (word : U64) (reserved : ℕ)
  -- read_clist
  | readIdx (stores : List (Place × List Byte))
  | copyOut (midx : U64) (stores : List (Place × List Byte))
  | cmpxchg (midx : U64) (stores : List (Place × List Byte))
  | returned (ret : ℤ) (stores : List (Place × List Byte))
  | overrun

namespace Pc

/-- No call is under way. -/
def isFree : Pc → Bool
  | idle | returned .. => true
  | _ => false

end Pc

/-- The shared list and its threads, with the positions that the `xadd`s have reserved and the
ones that successful reads were handed. -/
structure Config (Tid : Type) where
  list : Nbblist
  pc : Tid → Pc
  reserved : List ℕ
  handed : List ℕ

inductive Event (Tid : Type)
  | write (t : Tid) (bucket : Memory)
  | read (t : Tid)
  | access (t : Tid)

lemma readClist_leaves {fuel : ℕ} {l : Nbblist} {stores : List (Place × List Byte)} {out : Outcome}
    (hout : readClist fuel l stores = some out) : ¬ HEAD l.idx + l.len < TAIL l.idx := by
  intro hwait
  cases fuel with
  | zero => cases hout
  | succ fuel => rw [readClist,awaitIndex_eq_none hwait] at hout; cases hout

namespace Config
variable {Tid : Type} [DecidableEq Tid]

def goto (c : Config Tid) (t : Tid) (pc : Pc) : Config Tid :=
  { c with pc := Function.update c.pc t pc }

/-- The next access of a thread. -/
def access (c : Config Tid) (t : Tid) : Config Tid :=
  let l := c.list
  match c.pc t with
  | .idle | .returned .. | .overrun => c
  | .xadd bucket =>
    { c.goto t (.copyIn l.idx bucket) with
      list := { l with idx := l.idx + l.stride }
      reserved := c.reserved ++ [(TAIL l.idx).toNat] }
  | .copyIn midx bucket =>
    let entry := l.stride * (TAIL midx % l.len)
    { c.goto t (if HEAD midx + l.len = TAIL midx then .loadIdx else .idle) with
      list := { l with buf := memcpy l.buf entry.toNat bucket l.stride.toNat } }
  | .loadIdx => c.goto t (.storeIdx l.idx c.reserved.length)
  | .storeIdx word _ =>
    { c.goto t .idle with list := { l with idx := word + l.stride <<< 32 } }
  | .readIdx stores =>
    if HEAD l.idx + l.len < TAIL l.idx then c
    else if HEAD l.idx = TAIL l.idx then c.goto t (.returned 0 stores)
    else c.goto t (.copyOut l.idx stores)
  | .copyOut midx stores =>
    let entry := l.stride * (HEAD midx % l.len)
    if sizeofPointer < l.stride then c.goto t .overrun
    else
      c.goto t (.cmpxchg midx
        (stores ++ [(.parameter,bytes l.buf entry.toNat l.stride.toNat)]))
  | .cmpxchg midx stores =>
    if l.idx = midx then
      { c.goto t (.returned (l.stride.truncate 32).toInt stores) with
        list := { l with idx := midx + l.stride <<< 32 }
        handed := c.handed ++ [(HEAD midx).toNat] }
    else c.goto t (.readIdx stores)

/-- A call starts in a thread that is free. -/
def step (c : Config Tid) : Event Tid → Config Tid
  | .write t bucket => if (c.pc t).isFree then c.goto t (.xadd bucket) else c
  | .read t => if (c.pc t).isFree then c.goto t (.readIdx []) else c
  | .access t => c.access t

/-- The addition that the thread is about to make stays within the half it is meant for. -/
def Unwrapped (c : Config Tid) : Event Tid → Prop
  | .access t =>
    match c.pc t with
    | .xadd _ => (TAIL c.list.idx).toNat + c.list.stride.toNat < 2^32
    | .storeIdx word _ => (HEAD word).toNat + c.list.stride.toNat < 2^32
    | .cmpxchg midx _ => c.list.idx = midx → (HEAD midx).toNat + c.list.stride.toNat < 2^32
    | _ => True
  | _ => True

/-- TAIL tells how many positions were reserved, and HEAD does not go back. -/
def Keeps (s : U64) (c : Config Tid) (e : Event Tid) : Prop :=
  (TAIL (c.step e).list.idx).toNat = (c.step e).reserved.length * s.toNat ∧
    (HEAD c.list.idx).toNat ≤ (HEAD (c.step e).list.idx).toNat

/-- Nothing was reserved between the load and the store of a thread, and HEAD moved on by one
entry at most. -/
def Fresh (s : U64) (c : Config Tid) : Event Tid → Prop
  | .access t =>
    match c.pc t with
    | .storeIdx word reserved =>
      c.reserved.length = reserved ∧
        (HEAD c.list.idx).toNat ≤ (HEAD word).toNat + s.toNat
    | _ => True
  | _ => True

instance (c : Config Tid) : DecidablePred c.Unwrapped
  | .write .. | .read _ => inferInstanceAs (Decidable True)
  | .access t => by
    unfold Unwrapped
    dsimp only
    split <;> infer_instance

instance (s : U64) (c : Config Tid) : DecidablePred (c.Keeps s) :=
  fun _ => inferInstanceAs (Decidable (_ ∧ _))

instance (s : U64) (c : Config Tid) : DecidablePred (c.Fresh s)
  | .write .. | .read _ => inferInstanceAs (Decidable True)
  | .access t => by
    unfold Fresh
    dsimp only
    split <;> infer_instance

section Alone
variable {c : Config Tid} {t : Tid}

@[simp] lemma goto_list (c : Config Tid) (t : Tid) (pc : Pc) : (c.goto t pc).list = c.list := rfl

@[simp] lemma goto_pc_self (c : Config Tid) (t : Tid) (pc : Pc) : (c.goto t pc).pc t = pc :=
  Function.update_self ..

/-- The accesses of a write with none between them are `write_clist`. -/
theorem write_alone {bucket : Memory} (hpc : c.pc t = .xadd bucket) :
    ∃ k, ((access · t)^[k] c).list = writeClist c.list bucket ∧
      ((access · t)^[k] c).pc t = .idle := by
  by_cases hfull : HEAD c.list.idx + c.list.len = TAIL c.list.idx
  · exact ⟨4,by simp [access,goto,hpc,hfull,writeClist],by simp [access,goto,hpc,hfull]⟩
  · exact ⟨2,by simp [access,goto,hpc,hfull,writeClist],by simp [access,goto,hpc,hfull]⟩

/-- Where a read ends, and what it leaves of the list. -/
def Ends (c : Config Tid) (t : Tid) (l : Nbblist) : Outcome → Prop
  | .returned out => c.list = out.list ∧ c.pc t = .returned out.ret out.stores
  | .overrun => c.list = l ∧ c.pc t = .overrun

/-- The accesses of a read with none between them are `read_clist`. -/
theorem read_alone {fuel : ℕ} {stores : List (Place × List Byte)} {outcome : Outcome}
    (hpc : c.pc t = .readIdx stores) (hout : readClist fuel c.list stores = some outcome) :
    ∃ k, ((access · t)^[k] c).Ends t c.list outcome := by
  have hleave : ¬ HEAD c.list.idx + c.list.len < TAIL c.list.idx := readClist_leaves hout
  rcases readClist_cases hout with ⟨hempty,rfl⟩ | ⟨hne,hlong,rfl⟩ | ⟨hne,hshort,rfl⟩
  · have haccess : c.access t = c.goto t (.returned 0 stores) := by
      simp only [access,hpc,if_neg hleave,if_pos hempty]
    refine ⟨1,?_,?_⟩
    · rw [Function.iterate_one,haccess,goto_list]
    · rw [Function.iterate_one,haccess,goto_pc_self]
  · exact ⟨2,by simp [access,goto,hpc,hleave,hne,hlong],by simp [access,goto,hpc,hleave,hne,hlong]⟩
  · exact ⟨3,by simp [access,goto,hpc,hleave,hne,hshort],
      by simp [access,goto,hpc,hleave,hne,hshort]⟩

end Alone

/-- A thread that is about to store knows from its load how far TAIL had come. -/
def Loaded (s : U64) : Pc → Prop
  | .storeIdx word reserved => (TAIL word).toNat = reserved * s.toNat
  | _ => True

/-- The positions are reserved one after the other, and entries are handed out in the order of
their positions, each once. -/
structure Consistent (s : U64) (c : Config Tid) : Prop where
  stride : c.list.stride = s
  tail : (TAIL c.list.idx).toNat = c.reserved.length * s.toNat
  reserved : c.reserved = (List.range c.reserved.length).map (· * s.toNat)
  handed : c.handed.Pairwise (· < ·)
  behind : ∀ pos ∈ c.handed, pos < (HEAD c.list.idx).toNat
  loaded : ∀ t, Loaded s (c.pc t)

section Consistent
variable {s : U64} {c : Config Tid} {t : Tid}

lemma Consistent.goto (h : Consistent s c) (pc : Pc) (hpc : Loaded s pc) {list : Nbblist}
    (hstride : list.stride = c.list.stride) (hidx : list.idx = c.list.idx) :
    Consistent s { c.goto t pc with list } where
  stride := hstride.trans h.stride
  tail := by rw [hidx]; exact h.tail
  reserved := h.reserved
  handed := h.handed
  behind := by rw [hidx]; exact h.behind
  loaded := Update.all hpc h.loaded

lemma Consistent.xadd (h : Consistent s c) {bucket : Memory}
    (hfits : (TAIL c.list.idx).toNat + c.list.stride.toNat < 2^32) :
    Consistent s { c.goto t (.copyIn c.list.idx bucket) with
      list := { c.list with idx := c.list.idx + c.list.stride }
      reserved := c.reserved ++ [(TAIL c.list.idx).toNat] } where
  stride := h.stride
  tail := by
    rw [toNat_TAIL_add,Nat.mod_eq_of_lt hfits,h.tail,h.stride,List.length_append,
      List.length_singleton,Nat.succ_mul]
  reserved := by
    rw [List.length_append,List.length_singleton,List.range_succ,List.map_append,← h.reserved,
      h.tail]
    rfl
  handed := h.handed
  behind := by
    intro pos hpos
    rw [toNat_HEAD_add_of_lt hfits]
    exact h.behind pos hpos
  loaded := Update.all trivial h.loaded

lemma Consistent.storeIdx (h : Consistent s c) {word : U64} {reserved : ℕ}
    (hpc : c.pc t = .storeIdx word reserved) (hreserved : c.reserved.length = reserved)
    (hhead : (HEAD c.list.idx).toNat ≤ (HEAD word).toNat + s.toNat)
    (hfits : (HEAD word).toNat + c.list.stride.toNat < 2^32) :
    Consistent s { c.goto t .idle with
      list := { c.list with idx := word + c.list.stride <<< 32 } } := by
  have htail : (TAIL (word + c.list.stride <<< 32)).toNat = c.reserved.length * s.toNat := by
    have hword := h.loaded t
    rw [hpc] at hword
    rw [toNat_TAIL_add_shift,hreserved]
    exact hword
  have hle : (HEAD c.list.idx).toNat ≤ (HEAD (word + c.list.stride <<< 32)).toNat := by
    rw [toNat_HEAD_add_shift_of_lt hfits,h.stride]
    exact hhead
  refine ⟨h.stride,htail,h.reserved,h.handed,?_,Update.all trivial h.loaded⟩
  intro pos hpos
  exact (h.behind pos hpos).trans_le hle

/-- A successful exchange hands out an entry after all those handed out so far. -/
lemma Consistent.cmpxchg (h : Consistent s c) (hs : s ≠ 0) {pc : Pc} (hpc : Loaded s pc)
    (hfits : (HEAD c.list.idx).toNat + c.list.stride.toNat < 2^32) :
    Consistent s { c.goto t pc with
      list := { c.list with idx := c.list.idx + c.list.stride <<< 32 }
      handed := c.handed ++ [(HEAD c.list.idx).toNat] } := by
  have hpos : 0 < s.toNat := BitVec.toNat_pos_of_ne_zero hs
  have htail : (TAIL (c.list.idx + c.list.stride <<< 32)).toNat = c.reserved.length * s.toNat := by
    rw [toNat_TAIL_add_shift]
    exact h.tail
  have hlt : (HEAD c.list.idx).toNat < (HEAD (c.list.idx + c.list.stride <<< 32)).toNat := by
    rw [toNat_HEAD_add_shift_of_lt hfits,h.stride]
    omega
  refine ⟨h.stride,htail,h.reserved,?_,?_,Update.all hpc h.loaded⟩
  · refine List.pairwise_append.mpr ⟨h.handed,List.pairwise_singleton ..,?_⟩
    intro pos hpos pos' hpos'
    rw [List.mem_singleton.mp hpos']
    exact h.behind pos hpos
  · intro pos hpos
    rcases List.mem_append.mp hpos with hpos | hpos
    · exact (h.behind pos hpos).trans hlt
    · rw [List.mem_singleton.mp hpos]
      exact hlt

lemma Consistent.access (h : Consistent s c) (hs : s ≠ 0) (hfits : c.Unwrapped (.access t))
    (hfresh : c.Fresh s (.access t)) : Consistent s (c.access t) := by
  rw [Config.access]
  rw [Unwrapped] at hfits
  rw [Fresh] at hfresh
  cases hpc : c.pc t with
  | idle | returned | overrun => exact h
  | xadd bucket =>
    rw [hpc] at hfits
    exact h.xadd hfits
  | copyIn midx bucket =>
    refine h.goto _ ?_ rfl rfl
    split <;> trivial
  | loadIdx => exact h.goto (.storeIdx ..) h.tail rfl rfl
  | storeIdx word reserved =>
    rw [hpc] at hfits hfresh
    exact h.storeIdx hpc hfresh.1 hfresh.2 hfits
  | readIdx stores =>
    dsimp only
    split_ifs
    · exact h
    · exact h.goto (.returned ..) trivial rfl rfl
    · exact h.goto (.copyOut ..) trivial rfl rfl
  | copyOut midx stores =>
    dsimp only
    split_ifs
    · exact h.goto .overrun trivial rfl rfl
    · exact h.goto (.cmpxchg ..) trivial rfl rfl
  | cmpxchg midx stores =>
    rw [hpc] at hfits
    dsimp only
    split_ifs with hidx
    · obtain rfl := hidx
      exact h.cmpxchg hs trivial (hfits rfl)
    · exact h.goto (.readIdx ..) trivial rfl rfl

lemma Consistent.step (h : Consistent s c) (hs : s ≠ 0) {e : Event Tid} (hfits : c.Unwrapped e)
    (hfresh : c.Fresh s e) : Consistent s (c.step e) := by
  cases e with
  | write t bucket =>
    rw [Config.step]
    split
    · exact h.goto (.xadd ..) trivial rfl rfl
    · exact h
  | read t =>
    rw [Config.step]
    split
    · exact h.goto (.readIdx ..) trivial rfl rfl
    · exact h
  | access t => exact h.access hs hfits hfresh

/-- No access but a store that came too late takes HEAD back. -/
lemma Consistent.HEAD_le (h : Consistent s c) {e : Event Tid} (hfits : c.Unwrapped e)
    (hfresh : c.Fresh s e) : (HEAD c.list.idx).toNat ≤ (HEAD (c.step e).list.idx).toNat := by
  cases e with
  | write | read =>
    rw [Config.step]
    split <;> rfl
  | access t =>
    rw [Config.step,Config.access]
    rw [Unwrapped] at hfits
    rw [Fresh] at hfresh
    cases hpc : c.pc t with
    | idle | returned | overrun | copyIn | loadIdx => rfl
    | xadd bucket =>
      rw [hpc] at hfits
      exact (toNat_HEAD_add_of_lt hfits).ge
    | storeIdx word reserved =>
      rw [hpc] at hfits hfresh
      dsimp only
      rw [toNat_HEAD_add_shift_of_lt hfits,h.stride]
      exact hfresh.2
    | readIdx | copyOut =>
      dsimp only
      split_ifs <;> rfl
    | cmpxchg midx stores =>
      rw [hpc] at hfits
      dsimp only
      split_ifs with hidx
      · obtain rfl := hidx
        dsimp only
        rw [toNat_HEAD_add_shift_of_lt (hfits rfl)]
        exact Nat.le_add_right ..
      · rfl

/-- From a consistent list on, exactly the late stores lose an update. -/
theorem Consistent.keeps_iff (h : Consistent s c) (hs : s ≠ 0) {e : Event Tid}
    (hfits : c.Unwrapped e) : c.Keeps s e ↔ c.Fresh s e := by
  constructor
  · rintro ⟨htail,hhead⟩
    cases e with
    | write | read => trivial
    | access t =>
      rw [Config.step,Config.access] at htail hhead
      rw [Unwrapped] at hfits
      rw [Fresh]
      cases hpc : c.pc t with
      | storeIdx word reserved =>
        have hpos : 0 < s.toNat := BitVec.toNat_pos_of_ne_zero hs
        have hword := h.loaded t
        rw [hpc] at htail hhead hfits hword
        dsimp only at htail hhead hfits ⊢
        rw [toNat_TAIL_add_shift] at htail
        rw [toNat_HEAD_add_shift_of_lt hfits,h.stride] at hhead
        exact ⟨Nat.eq_of_mul_eq_mul_right hpos (htail.symm.trans hword),hhead⟩
      | _ => trivial
  · intro hfresh
    exact ⟨(h.step hs hfits hfresh).tail,h.HEAD_le hfits hfresh⟩

end Consistent

end Config

open Config

/-- No call has started yet. -/
def Config.init {Tid : Type} (l : Nbblist) : Config Tid := ⟨l,fun _ => .idle,[],[]⟩

lemma consistent_init {Tid : Type} {n s : U64} {mem : Memory} {l : Nbblist}
    (hl : initClist (some mem) n s = some l) : Consistent s (Config.init l : Config Tid) := by
  obtain rfl := Option.some.inj hl
  have htail : (TAIL 0).toNat = 0 := by decide
  exact ⟨rfl,htail.trans (Nat.zero_mul _).symm,rfl,.nil,fun _ hpos => absurd hpos List.not_mem_nil,
    fun _ => trivial⟩

/-- Two threads and a list of one entry: a third write takes its place between the load and the
store of the second, and the store takes TAIL back. -/
theorem store_undoes_xadd :
    let events : List (Event Bool) := [.write true fun _ => 7,.access true,.access true,
      .write true fun _ => 8,.access true,.access true,.access true,
      .write false fun _ => 9,.access false,.access true]
    Admits step Unwrapped (init ⟨1,1,0,fun _ => 0,25⟩) events ∧
      ¬ Admits step (Keeps 1) (init ⟨1,1,0,fun _ => 0,25⟩) events := by
  decide

/-- No update of the index is lost in exactly those runs, of any number of threads in any order,
whose stores come early enough; then no two writes reserve the same position and no entry is
handed out twice. -/
theorem no_update_lost_iff {Tid : Type} [DecidableEq Tid] {n s : U64} (hs : s ≠ 0) {mem : Memory}
    {l : Nbblist} (hl : initClist (some mem) n s = some l) {events : List (Event Tid)}
    (hrun : Admits step Unwrapped (init l : Config Tid) events) :
    (Admits step (Keeps s) (init l) events ↔ Admits step (Fresh s) (init l) events) ∧
      (Admits step (Keeps s) (init l) events →
        let c := events.foldl step (init l)
        c.reserved.Pairwise (· < ·) ∧ c.handed.Pairwise (· < ·)) := by
  have hinit : Consistent s (init l : Config Tid) := consistent_init hl
  have hiff : Admits step (Keeps s) (init l) events ↔ Admits step (Fresh s) (init l) events := by
    refine admits_iff_admits (I := Consistent s) ?_ ?_ hinit hrun
    · intro c e hc hfits
      exact hc.keeps_iff hs hfits
    · intro c e hc hfits hfresh
      exact hc.step hs hfits hfresh
  refine ⟨hiff,fun hkeeps => ?_⟩
  have hboth := admits_and.mpr ⟨hrun,hiff.mp hkeeps⟩
  have hfinal := hboth.invariant (I := Consistent s)
    (fun c e hc he => hc.step hs he.1 he.2) hinit
  have hpos : 0 < s.toNat := BitVec.toNat_pos_of_ne_zero hs
  refine ⟨?_,hfinal.handed⟩
  rw [hfinal.reserved,List.pairwise_map]
  exact List.pairwise_lt_range.imp fun hlt => Nat.mul_lt_mul_of_pos_right hlt hpos

/-- A write of the second thread falls between the copy and the load of the first. -/
theorem no_update_lost_served :
    Admits step (Keeps 1) (init ⟨1,1,0,fun _ => 0,25⟩ : Config Bool)
      [.write true fun _ => 7,.access true,.access true,
        .write true fun _ => 8,.access true,.access true,
        .write false fun _ => 9,.access false,.access true,.access true] :=
  have hl : initClist (some fun _ => 0) 1 1 = some ⟨1,1,0,fun _ => 0,25⟩ := rfl
  (no_update_lost_iff (by decide) hl (by decide)).1.mpr (by decide)

end PmuMin.NbBoundedList
