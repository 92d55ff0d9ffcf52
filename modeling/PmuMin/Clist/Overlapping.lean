import PmuMin.Clist.Interleaved
import PmuMin.Library.SlotBuffer

/-! What becomes of the samples when the calls of `nbboundedlist.c` overlap: which of them are kept,
and what a read has copied when its exchange succeeds. -/
namespace PmuMin.NbBoundedList
open Machine Config SlotBuffer

/-- The list and its threads, with the samples in the order in which their positions were reserved
and, for each successful read, the position it was handed and the bytes it copied. -/
structure Observed (Tid : Type) where
  config : Config Tid
  samples : List Memory
  delivered : List (ℕ × List Byte)

/-- The bytes that a read has copied last. -/
def copied (stores : List (Place × List Byte)) : List Byte :=
  (stores.getLast?.map Prod.snd).getD []

/-- The position that a thread is about to copy its sample to. -/
def Pc.copying : Pc → Option ℕ
  | .copyIn midx _ => some (TAIL midx).toNat
  | _ => none

/-- The position whose sample a thread is about to copy out. -/
def Pc.copyingOut : Pc → Option ℕ
  | .copyOut midx _ => some (HEAD midx).toNat
  | _ => none

def Pc.isXadd : Pc → Bool
  | .xadd _ => true
  | _ => false

/-- The thread is on its way to the store that takes HEAD along. -/
def Pc.Owes (n : U64) : Pc → Prop
  | .copyIn midx _ => HEAD midx + n = TAIL midx
  | .loadIdx | .storeIdx .. => True
  | _ => False

section Run
variable {Tid : Type} [DecidableEq Tid]

def Observed.init (l : Nbblist) : Observed Tid := ⟨Config.init l,[],[]⟩

/-- A step of the run; the history does not change it. -/
def Observed.step (o : Observed Tid) (e : Event Tid) : Observed Tid where
  config := o.config.step e
  samples :=
    match e with
    | .access t =>
      match o.config.pc t with
      | .xadd bucket => o.samples ++ [bucket]
      | _ => o.samples
    | _ => o.samples
  delivered :=
    match e with
    | .access t =>
      match o.config.pc t with
      | .cmpxchg midx stores =>
        if o.config.list.idx = midx then o.delivered ++ [((HEAD midx).toNat,copied stores)]
        else o.delivered
      | _ => o.delivered
    | _ => o.delivered

/-- After so many writes the slots repeat. -/
def slots (n s : U64) : ℕ := n.toNat / n.toNat.gcd s.toNat

/-- The offset of the `k`-th sample. -/
def slot (n s : U64) (k : ℕ) : ℕ := s.toNat * (k * s.toNat % n.toNat)

omit [DecidableEq Tid] in
/-- No write comes round to the slot of a sample that is still being copied. -/
def NotLapped (n s : U64) (c : Config Tid) : Event Tid → Prop
  | .access t => (c.pc t).isXadd = true → ∀ u, ∀ p ∈ (c.pc u).copying,
    (TAIL c.list.idx).toNat < p + slots n s * s.toNat
  | _ => True

omit [DecidableEq Tid] in
/-- No read copies a sample that its writer is still copying. -/
def Settled (c : Config Tid) : Event Tid → Prop
  | .access t => ∀ p ∈ (c.pc t).copyingOut, ∀ u, (c.pc u).copying ≠ some p
  | _ => True

/-- Neither half of the index wraps, the index loses no update, and no write laps another one. -/
def Orderly (n s : U64) (c : Config Tid) (e : Event Tid) : Prop :=
  c.Unwrapped e ∧ c.Fresh s e ∧ NotLapped n s c e

instance [Fintype Tid] (n s : U64) (c : Config Tid) : DecidablePred (NotLapped n s c)
  | .write .. | .read _ => inferInstanceAs (Decidable True)
  | .access _ => inferInstanceAs (Decidable (_ → _))

instance [Fintype Tid] (c : Config Tid) : DecidablePred (Settled c)
  | .write .. | .read _ => inferInstanceAs (Decidable True)
  | .access t => inferInstanceAs (Decidable (∀ p ∈ (c.pc t).copyingOut, _))

instance [Fintype Tid] (n s : U64) (c : Config Tid) : DecidablePred (Orderly n s c) :=
  fun _ => inferInstanceAs (Decidable (_ ∧ _))

/-- The last samples are kept: each whose writer has copied it, up to where the slots repeat. -/
def KeepsLast (n s : U64) (o : Observed Tid) : Prop :=
  ∀ k bucket, o.samples[k]? = some bucket → o.samples.length ≤ k + slots n s →
    (∀ t, (o.config.pc t).copying ≠ some (k * s.toNat)) →
    segment o.config.list.buf (slot n s k) s.toNat = segment bucket 0 s.toNat

end Run

section Arithmetic
variable {n s : U64}

lemma toNat_HEAD_add_len (hn : n.toNat < 2^32) (idx : U64) :
    (HEAD idx + n).toNat = (HEAD idx).toNat + n.toNat := by
  have hhead := HEAD_lt idx
  rw [BitVec.toNat_add,Nat.mod_eq_of_lt (by omega)]

lemma full_iff (hn : n.toNat < 2^32) (idx : U64) :
    HEAD idx + n = TAIL idx ↔ (HEAD idx).toNat + n.toNat = (TAIL idx).toNat := by
  rw [← BitVec.toNat_inj,toNat_HEAD_add_len hn]

lemma waits_iff (hn : n.toNat < 2^32) (idx : U64) :
    HEAD idx + n < TAIL idx ↔ (HEAD idx).toNat + n.toNat < (TAIL idx).toNat := by
  rw [BitVec.lt_def,toNat_HEAD_add_len hn]

lemma slots_pos (hn : n ≠ 0) : 0 < slots n s :=
  Nat.div_gcd_pos_of_pos_left s.toNat (BitVec.toNat_pos_of_ne_zero hn)

/-- Between two positions that are in the list together there are fewer than `slots`. -/
lemma le_slots (hs : s ≠ 0) {d : ℕ} (hd : d * s.toNat ≤ n.toNat) : d ≤ slots n s := by
  have hpos : 0 < s.toNat := BitVec.toNat_pos_of_ne_zero hs
  have hgcd : n.toNat.gcd s.toNat ≤ s.toNat := Nat.gcd_le_right _ hpos
  have hgpos : 0 < n.toNat.gcd s.toNat := Nat.gcd_pos_of_pos_right _ hpos
  calc d ≤ n.toNat / s.toNat := (Nat.le_div_iff_mul_le hpos).mpr hd
    _ ≤ slots n s := Nat.div_le_div_left hgcd hgpos

lemma toNat_entry (hn : n ≠ 0) (hsize : n.toNat * s.toNat < 2^32) {x : U64} {k : ℕ}
    (hx : x.toNat = k * s.toNat) : (s * (x % n)).toNat = slot n s k := by
  have hpos : 0 < n.toNat := BitVec.toNat_pos_of_ne_zero hn
  have hmod : k * s.toNat % n.toNat ≤ n.toNat := (Nat.mod_lt _ hpos).le
  have hlt : s.toNat * (k * s.toNat % n.toNat) < 2^64 := by
    calc s.toNat * (k * s.toNat % n.toNat) ≤ s.toNat * n.toNat := Nat.mul_le_mul_left _ hmod
      _ = n.toNat * s.toNat := Nat.mul_comm ..
      _ < 2^64 := hsize.trans (by decide)
  rw [BitVec.toNat_mul,BitVec.toNat_umod,hx,Nat.mod_eq_of_lt hlt,slot]

/-- Samples that fewer than `slots` writes separate do not meet. -/
lemma slot_apart (hn : n ≠ 0) (hs : s ≠ 0) {j k : ℕ} (hne : j ≠ k) (hjk : j < k + slots n s)
    (hkj : k < j + slots n s) : Apart s.toNat (slot n s j) (slot n s k) := by
  have hpos : 0 < s.toNat := BitVec.toNat_pos_of_ne_zero hs
  refine (eq_or_apart_of_mul s.toNat _ _).resolve_left fun heq => hne ?_
  have hmod : j % slots n s = k % slots n s :=
    (mul_mod_eq_iff (BitVec.toNat_pos_of_ne_zero hn) j k).mp (Nat.eq_of_mul_eq_mul_left hpos heq)
  rcases Nat.lt_or_ge j k with hlt | hge
  · have hdvd : slots n s ∣ k - j := (Nat.modEq_iff_dvd' hlt.le).mp hmod
    have hle := Nat.le_of_dvd (Nat.sub_pos_of_lt hlt) hdvd
    omega
  · have hdvd : slots n s ∣ j - k := (Nat.modEq_iff_dvd' hge).mp hmod.symm
    rcases Nat.eq_or_lt_of_le hge with heq' | hlt
    · exact heq'.symm
    · have hle := Nat.le_of_dvd (Nat.sub_pos_of_lt hlt) hdvd
      omega

end Arithmetic

/-- The word that a read has loaded: HEAD and TAIL have not gone back since, and showed at least one
sample and no more than the list has room for. -/
structure Held (n : U64) (idx midx : U64) : Prop where
  head : (HEAD midx).toNat ≤ (HEAD idx).toNat
  tail : (TAIL midx).toNat ≤ (TAIL idx).toNat
  some : (HEAD midx).toNat < (TAIL midx).toNat
  within : (TAIL midx).toNat ≤ (HEAD midx).toNat + n.toNat

/-- What a thread can rely on between two of its accesses. -/
def Local (n s : U64) (idx : U64) (samples : List Memory) : Pc → Prop
  | .copyIn midx bucket =>
    (∃ k, (TAIL midx).toNat = k * s.toNat ∧ samples[k]? = some bucket ∧
        samples.length ≤ k + slots n s) ∧
      (HEAD midx + n = TAIL midx → (HEAD idx).toNat + n.toNat < (TAIL idx).toNat)
  | .loadIdx => (HEAD idx).toNat + n.toNat < (TAIL idx).toNat
  | .storeIdx word _ =>
    (HEAD idx).toNat + n.toNat < (TAIL idx).toNat ∧ (HEAD word).toNat = (HEAD idx).toNat
  | .copyOut midx _ | .cmpxchg midx _ => Held n idx midx
  | _ => True

section Local
variable {n s idx : U64} {samples : List Memory} {pc : Pc}

/-- Who owes the list a store has made TAIL leave HEAD behind. -/
lemma Local.ahead (h : Local n s idx samples pc) (howes : pc.Owes n) :
    (HEAD idx).toNat + n.toNat < (TAIL idx).toNat := by
  cases pc with
  | copyIn => exact h.2 howes
  | loadIdx => exact h
  | storeIdx => exact h.1
  | idle | xadd | readIdx | copyOut | cmpxchg | returned | overrun => exact howes.elim

lemma Local.reserve (h : Local n s idx samples pc)
    (hfits : (TAIL idx).toNat + s.toNat < 2^32)
    (htail : (TAIL idx).toNat = samples.length * s.toNat)
    (hlap : ∀ p ∈ pc.copying, (TAIL idx).toNat < p + slots n s * s.toNat) (bucket : Memory) :
    Local n s (idx + s) (samples ++ [bucket]) pc := by
  have hhead' : (HEAD (idx + s)).toNat = (HEAD idx).toNat := toNat_HEAD_add_of_lt hfits
  have htail' : (TAIL (idx + s)).toNat = (TAIL idx).toNat + s.toNat := by
    rw [toNat_TAIL_add,Nat.mod_eq_of_lt hfits]
  cases pc with
  | copyIn midx bucket' =>
    obtain ⟨⟨k,hk,hbucket,-⟩,hfull⟩ := h
    have hlt := hlap _ rfl
    refine ⟨⟨k,hk,?_,?_⟩,fun hf => ?_⟩
    · obtain ⟨hlen,-⟩ := List.getElem?_eq_some_iff.mp hbucket
      rw [List.getElem?_append_left hlen]
      exact hbucket
    · rw [htail,hk,← Nat.add_mul] at hlt
      rw [List.length_append,List.length_singleton]
      exact Nat.lt_of_mul_lt_mul_right hlt
    · rw [hhead',htail']
      exact (hfull hf).trans_le (Nat.le_add_right ..)
  | loadIdx =>
    change (HEAD idx).toNat + n.toNat < (TAIL idx).toNat at h
    change (HEAD (idx + s)).toNat + n.toNat < (TAIL (idx + s)).toNat
    omega
  | storeIdx word reserved =>
    obtain ⟨hahead,hword⟩ := h
    exact ⟨by omega,by rw [hhead']; exact hword⟩
  | copyOut midx stores | cmpxchg midx stores =>
    have hheld : Held n idx midx := h
    exact ⟨hheld.head.trans hhead'.ge,hheld.tail.trans (by omega),hheld.some,hheld.within⟩
  | idle | xadd | readIdx | returned | overrun => trivial

lemma Local.advance (h : Local n s idx samples pc) (howes : ¬ pc.Owes n) {idx' : U64}
    (htail : (TAIL idx').toNat = (TAIL idx).toNat)
    (hhead : (HEAD idx).toNat ≤ (HEAD idx').toNat) : Local n s idx' samples pc := by
  cases pc with
  | copyIn midx bucket => exact ⟨h.1,fun hfull => absurd hfull howes⟩
  | loadIdx | storeIdx => exact absurd trivial howes
  | copyOut midx stores | cmpxchg midx stores =>
    have hheld : Held n idx midx := h
    exact ⟨hheld.head.trans hhead,hheld.tail.trans htail.ge,hheld.some,hheld.within⟩
  | idle | xadd | readIdx | returned | overrun => trivial

end Local

/-- The states of an orderly run. HEAD and TAIL are multiples of the size of an entry, and HEAD
does not pass TAIL; at most one thread is on its way to take HEAD along. -/
structure Inv {Tid : Type} (n s : U64) (o : Observed Tid) : Prop where
  consistent : Consistent s o.config
  len : o.config.list.len = n
  samples : o.samples.length = o.config.reserved.length
  aligned : s.toNat ∣ (HEAD o.config.list.idx).toNat
  behind : (HEAD o.config.list.idx).toNat ≤ (TAIL o.config.list.idx).toNat
  places : ∀ t, Local n s o.config.list.idx o.samples (o.config.pc t)
  one : ∀ t u, (o.config.pc t).Owes n → (o.config.pc u).Owes n → t = u
  stored : KeepsLast n s o

section Inv
variable {Tid : Type} [DecidableEq Tid] {n s : U64} {o : Observed Tid} {t : Tid}

omit [DecidableEq Tid] in
lemma Inv.tail (h : Inv n s o) :
    (TAIL o.config.list.idx).toNat = o.samples.length * s.toNat := by
  rw [h.samples]
  exact h.consistent.tail

omit [DecidableEq Tid] in
/-- While a thread is on its way to take HEAD along, there is a whole entry between HEAD and TAIL,
and no read gets through. -/
lemma Inv.room (h : Inv n s o)
    (hne : (HEAD o.config.list.idx).toNat < (TAIL o.config.list.idx).toNat) :
    (HEAD o.config.list.idx).toNat + s.toNat ≤ (TAIL o.config.list.idx).toNat := by
  have hdvd : s.toNat ∣ (TAIL o.config.list.idx).toNat - (HEAD o.config.list.idx).toNat := by
    refine Nat.dvd_sub ?_ h.aligned
    rw [h.tail]
    exact Nat.dvd_mul_left ..
  have hle := Nat.le_of_dvd (Nat.sub_pos_of_lt hne) hdvd
  omega

lemma owes_of_update {pcs : Tid → Pc} {pc : Pc} (howes : pc.Owes n → (pcs t).Owes n) {u : Tid}
    (hu : (Function.update pcs t pc u).Owes n) : (pcs u).Owes n := by
  rcases eq_or_ne u t with rfl | hne
  · rw [Function.update_self] at hu
    exact howes hu
  · rwa [Function.update_of_ne hne] at hu

lemma not_copying_of_update {pcs : Tid → Pc} {pc : Pc} (hold : (pcs t).copying = none) {p : ℕ}
    (hfree : ∀ u, (Function.update pcs t pc u).copying ≠ some p) (u : Tid) :
    (pcs u).copying ≠ some p := by
  rcases eq_or_ne u t with rfl | hne
  · rw [hold]
    exact (Option.some_ne_none _).symm
  · have hu := hfree u
    rwa [Function.update_of_ne hne] at hu

lemma Inv.goto (h : Inv n s o) (pc : Pc) (hold : (o.config.pc t).copying = none)
    (hlocal : Local n s o.config.list.idx o.samples pc)
    (howes : pc.Owes n → (o.config.pc t).Owes n) {delivered : List (ℕ × List Byte)}
    (hcons : Consistent s (o.config.goto t pc)) :
    Inv n s ⟨o.config.goto t pc,o.samples,delivered⟩ := by
  refine ⟨hcons,h.len,h.samples,h.aligned,h.behind,Update.all hlocal h.places,?_,?_⟩
  · intro u v hu hv
    exact h.one u v (owes_of_update howes hu) (owes_of_update howes hv)
  · intro k bucket hbucket hlast hfree
    exact h.stored k bucket hbucket hlast (not_copying_of_update hold hfree)

/-- Where a list is full, no thread was on its way to take HEAD along, so that at most one is when
a position has been reserved. -/
lemma Inv.one_xadd (h : Inv n s o) (hlen : n.toNat < 2^32) (bucket : Memory) (u v : Tid)
    (hu : (Function.update o.config.pc t (.copyIn o.config.list.idx bucket) u).Owes n)
    (hv : (Function.update o.config.pc t (.copyIn o.config.list.idx bucket) v).Owes n) : u = v := by
  have howes : ∀ u, (Function.update o.config.pc t (.copyIn o.config.list.idx bucket) u).Owes n →
      (u = t ∧ HEAD o.config.list.idx + n = TAIL o.config.list.idx) ∨ (o.config.pc u).Owes n := by
    intro u hu
    rcases eq_or_ne u t with rfl | hne
    · rw [Function.update_self] at hu
      exact .inl ⟨rfl,hu⟩
    · rw [Function.update_of_ne hne] at hu
      exact .inr hu
  have hclash : HEAD o.config.list.idx + n = TAIL o.config.list.idx →
      ∀ u, ¬ (o.config.pc u).Owes n := by
    intro hfull u hu
    have hahead := (h.places u).ahead hu
    rw [full_iff hlen] at hfull
    omega
  rcases howes u hu with ⟨rfl,hfull⟩ | hu'
  · rcases howes v hv with ⟨rfl,-⟩ | hv'
    · rfl
    · exact absurd hv' (hclash hfull v)
  · rcases howes v hv with ⟨rfl,hfull⟩ | hv'
    · exact absurd hu' (hclash hfull u)
    · exact h.one u v hu' hv'

/-- The sample of the new position is still to be copied; the others are where they were. -/
lemma Inv.stored_xadd (h : Inv n s o) (hnone : (o.config.pc t).copying = none) {bucket : Memory}
    {k : ℕ} {bucket' : Memory} (hbucket : (o.samples ++ [bucket])[k]? = some bucket')
    (hlast : (o.samples ++ [bucket]).length ≤ k + slots n s)
    (hfree : ∀ u, (Function.update o.config.pc t (.copyIn o.config.list.idx bucket) u).copying ≠
      some (k * s.toNat)) :
    segment o.config.list.buf (slot n s k) s.toNat = segment bucket' 0 s.toNat := by
  rw [List.length_append,List.length_singleton] at hlast
  rcases Nat.lt_trichotomy k o.samples.length with hlt | rfl | hgt
  · rw [List.getElem?_append_left hlt] at hbucket
    exact h.stored k bucket' hbucket (Nat.le_of_succ_le hlast) (not_copying_of_update hnone hfree)
  · refine absurd ?_ (hfree t)
    rw [Function.update_self]
    exact congrArg some h.tail
  · have hnot : (o.samples ++ [bucket]).length ≤ k := by
      rw [List.length_append,List.length_singleton]
      exact hgt
    rw [List.getElem?_eq_none hnot] at hbucket
    cases hbucket

/-- An `xadd` reserves the position behind the last sample. -/
lemma Inv.xadd (h : Inv n s o) (hn : n ≠ 0) (hs : s ≠ 0) (hlen : n.toNat < 2^32) {bucket : Memory}
    (hpc : o.config.pc t = .xadd bucket)
    (hfits : (TAIL o.config.list.idx).toNat + o.config.list.stride.toNat < 2^32)
    (hlap : ∀ u, ∀ p ∈ (o.config.pc u).copying,
      (TAIL o.config.list.idx).toNat < p + slots n s * s.toNat)
    (hcons : Consistent s (o.config.access t)) :
    Inv n s ⟨o.config.access t,o.samples ++ [bucket],o.delivered⟩ := by
  have haccess : o.config.access t =
      { o.config.goto t (.copyIn o.config.list.idx bucket) with
        list := { o.config.list with idx := o.config.list.idx + o.config.list.stride }
        reserved := o.config.reserved ++ [(TAIL o.config.list.idx).toNat] } := by
    rw [Config.access,hpc]
  rw [haccess] at hcons ⊢
  have hstride : o.config.list.stride = s := h.consistent.stride
  rw [hstride] at hfits
  have hhead' : (HEAD (o.config.list.idx + o.config.list.stride)).toNat =
      (HEAD o.config.list.idx).toNat := by
    rw [hstride]
    exact toNat_HEAD_add_of_lt hfits
  have htail' : (TAIL (o.config.list.idx + o.config.list.stride)).toNat =
      (TAIL o.config.list.idx).toNat + s.toNat := by
    rw [hstride,toNat_TAIL_add,Nat.mod_eq_of_lt hfits]
  have hnone : (o.config.pc t).copying = none := by rw [hpc]; rfl
  refine ⟨hcons,h.len,?_,?_,?_,?_,?_,?_⟩
  · simp only [List.length_append,List.length_singleton,h.samples]
  · simp only [hhead']
    exact h.aligned
  · simp only [hhead',htail']
    exact h.behind.trans (Nat.le_add_right ..)
  · refine Update.all ⟨⟨o.samples.length,h.tail,?_,?_⟩,?_⟩ fun u => ?_
    · exact List.getElem?_concat_length ..
    · rw [List.length_append,List.length_singleton]
      exact Nat.add_le_add_left (slots_pos hn) _
    · intro hfull
      rw [full_iff hlen] at hfull
      simp only [hhead',htail']
      have hpos : 0 < s.toNat := BitVec.toNat_pos_of_ne_zero hs
      omega
    · simp only [hstride]
      exact (h.places u).reserve hfits h.tail (hlap u) bucket
  · exact h.one_xadd hlen bucket
  · intro k bucket' hbucket hlast hfree
    exact h.stored_xadd hnone hbucket hlast hfree

/-- A write copies its sample, to a slot that no other of the last samples meets. -/
lemma Inv.copyIn (h : Inv n s o) (hn : n ≠ 0) (hs : s ≠ 0) (hsize : n.toNat * s.toNat < 2^32)
    {midx : U64} {bucket : Memory} (hpc : o.config.pc t = .copyIn midx bucket)
    (hcons : Consistent s (o.config.access t)) :
    Inv n s ⟨o.config.access t,o.samples,o.delivered⟩ := by
  obtain ⟨⟨k,hk,hbucket,hlast⟩,hahead⟩ :
      Local n s o.config.list.idx o.samples (.copyIn midx bucket) :=
    hpc ▸ h.places t
  have hentry : (o.config.list.stride * (TAIL midx % o.config.list.len)).toNat = slot n s k := by
    rw [h.consistent.stride,h.len]
    exact toNat_entry hn hsize hk
  let pc : Pc := if HEAD midx + n = TAIL midx then .loadIdx else .idle
  have haccess : o.config.access t =
      { o.config.goto t pc with
        list := { o.config.list with
          buf := store o.config.list.buf (slot n s k) s.toNat bucket } } := by
    rw [Config.access,hpc]
    dsimp only
    rw [hentry]
    simp only [h.len,h.consistent.stride]
    rfl
  rw [haccess] at hcons ⊢
  have howes : pc.Owes n → (o.config.pc t).Owes n := by
    intro hpc'
    rw [hpc]
    by_contra hnot
    have hidle : pc = .idle := if_neg hnot
    rw [hidle] at hpc'
    exact hpc'
  have hlocal : Local n s o.config.list.idx o.samples pc := by
    by_cases hfull : HEAD midx + n = TAIL midx
    · have hload : pc = .loadIdx := if_pos hfull
      rw [hload]
      exact hahead hfull
    · have hidle : pc = .idle := if_neg hfull
      rw [hidle]
      trivial
  refine ⟨hcons,h.len,h.samples,h.aligned,h.behind,Update.all hlocal h.places,?_,?_⟩
  · intro u v hu hv
    exact h.one u v (owes_of_update howes hu) (owes_of_update howes hv)
  · intro j bucket' hbucket' hlast' hfree
    change o.samples.length ≤ j + slots n s at hlast'
    obtain ⟨hjlen,-⟩ := List.getElem?_eq_some_iff.mp hbucket'
    obtain ⟨hklen,-⟩ := List.getElem?_eq_some_iff.mp hbucket
    change j < o.samples.length at hjlen
    rcases eq_or_ne j k with rfl | hne
    · obtain rfl : bucket' = bucket := Option.some.inj (hbucket'.symm.trans hbucket)
      exact segment_store_self ..
    · have hapart := slot_apart hn hs hne.symm (by omega) (by omega)
      refine (segment_store_of_apart hapart ..).trans ?_
      refine h.stored j bucket' hbucket' hlast' fun u => ?_
      rcases eq_or_ne u t with rfl | hut
      · rw [hpc]
        intro heq
        have hpos : 0 < s.toNat := BitVec.toNat_pos_of_ne_zero hs
        have hmul : (TAIL midx).toNat = j * s.toNat := Option.some.inj heq
        rw [hk] at hmul
        exact hne (Nat.eq_of_mul_eq_mul_right hpos hmul).symm
      · have hu := hfree u
        simp only [Config.goto,Function.update_of_ne hut] at hu
        exact hu

lemma Inv.advance (h : Inv n s o) (pc : Pc) {idx : U64} (hold : (o.config.pc t).copying = none)
    (hlocal : Local n s idx o.samples pc) (hpc : ¬ pc.Owes n)
    (hothers : ∀ u, u ≠ t → ¬ (o.config.pc u).Owes n)
    (htail : (TAIL idx).toNat = (TAIL o.config.list.idx).toNat)
    (hhead : (HEAD idx).toNat = (HEAD o.config.list.idx).toNat + s.toNat)
    (hroom : (HEAD o.config.list.idx).toNat < (TAIL o.config.list.idx).toNat)
    {handed : List ℕ} {delivered : List (ℕ × List Byte)}
    (hcons : Consistent s { o.config.goto t pc with
      list := { o.config.list with idx }, handed }) :
    Inv n s ⟨{ o.config.goto t pc with list := { o.config.list with idx }, handed },
      o.samples,delivered⟩ := by
  have hgone : ∀ u, ¬ (Function.update o.config.pc t pc u).Owes n := by
    intro u
    rcases eq_or_ne u t with rfl | hne
    · rwa [Function.update_self]
    · rw [Function.update_of_ne hne]
      exact hothers u hne
  refine ⟨hcons,h.len,h.samples,?_,?_,fun u => ?_,?_,?_⟩
  · simp only [hhead]
    exact (Nat.dvd_add_right h.aligned).mpr (dvd_refl _)
  · simp only [htail,hhead]
    exact h.room hroom
  · rcases eq_or_ne u t with rfl | hne
    · simp only [Config.goto,Function.update_self]
      exact hlocal
    · simp only [Config.goto,Function.update_of_ne hne]
      exact (h.places u).advance (hothers u hne) htail (hhead.ge.trans' (Nat.le_add_right ..))
  · intro u v hu
    exact absurd hu (hgone u)
  · intro k bucket hbucket hlast hfree
    exact h.stored k bucket hbucket hlast (not_copying_of_update hold hfree)

/-- The store takes HEAD along to where it is behind TAIL by no more than before the `xadd`. -/
lemma Inv.storeIdx (h : Inv n s o) {word : U64} {reserved : ℕ}
    (hpc : o.config.pc t = .storeIdx word reserved) (hreserved : o.config.reserved.length = reserved)
    (hfits : (HEAD word).toNat + o.config.list.stride.toNat < 2^32)
    (hcons : Consistent s (o.config.access t)) :
    Inv n s ⟨o.config.access t,o.samples,o.delivered⟩ := by
  have haccess : o.config.access t =
      { o.config.goto t .idle with
        list := { o.config.list with idx := word + o.config.list.stride <<< 32 } } := by
    rw [Config.access,hpc]
  have howes : (o.config.pc t).Owes n := by
    rw [hpc]
    trivial
  have hahead := (h.places t).ahead howes
  obtain ⟨-,hword⟩ : Local n s o.config.list.idx o.samples (.storeIdx word reserved) :=
    hpc ▸ h.places t
  have hloaded : (TAIL word).toNat = reserved * s.toNat := by
    have hl := h.consistent.loaded t
    rw [hpc] at hl
    exact hl
  rw [haccess] at hcons ⊢
  refine h.advance .idle (by rw [hpc]; rfl) trivial id (fun u hne hu => ?_) ?_ ?_ (by omega) hcons
  · exact hne (h.one u t hu howes)
  · rw [toNat_TAIL_add_shift,hloaded,← hreserved]
    exact h.consistent.tail.symm
  · rw [toNat_HEAD_add_shift_of_lt hfits,hword,h.consistent.stride]

lemma Inv.readIdx (h : Inv n s o) (hlen : n.toNat < 2^32) {stores : List (Place × List Byte)}
    (hpc : o.config.pc t = .readIdx stores) (hcons : Consistent s (o.config.access t)) :
    Inv n s ⟨o.config.access t,o.samples,o.delivered⟩ := by
  have hold : (o.config.pc t).copying = none := by rw [hpc]; rfl
  rw [Config.access,hpc] at hcons ⊢
  dsimp only at hcons ⊢
  split_ifs at hcons ⊢ with hwait hempty
  · exact h
  · exact h.goto (.returned ..) hold trivial False.elim hcons
  · refine h.goto (.copyOut ..) hold ⟨le_rfl,le_rfl,?_,?_⟩ False.elim hcons
    · refine lt_of_le_of_ne h.behind fun heq => hempty ?_
      exact BitVec.toNat_inj.mp heq
    · rw [h.len,waits_iff hlen] at hwait
      exact not_lt.mp hwait

/-- A successful exchange finds the word that the read has loaded, with no thread on its way to take
HEAD along. -/
lemma Inv.cmpxchg (h : Inv n s o) {midx : U64} {stores : List (Place × List Byte)}
    (hpc : o.config.pc t = .cmpxchg midx stores)
    (hfits : o.config.list.idx = midx → (HEAD midx).toNat + o.config.list.stride.toNat < 2^32)
    (hcons : Consistent s (o.config.access t)) (delivered : List (ℕ × List Byte)) :
    Inv n s ⟨o.config.access t,o.samples,delivered⟩ := by
  have hold : (o.config.pc t).copying = none := by rw [hpc]; rfl
  have hheld : Held n o.config.list.idx midx := by
    have hl := h.places t
    rw [hpc] at hl
    exact hl
  rw [Config.access,hpc] at hcons ⊢
  dsimp only at hcons ⊢
  split_ifs at hcons ⊢ with hidx
  · obtain rfl := hidx
    have hnone : ∀ u, ¬ (o.config.pc u).Owes n := by
      intro u hu
      have hahead := (h.places u).ahead hu
      have hwithin := hheld.within
      omega
    refine h.advance (.returned ..) hold trivial id (fun u _ => hnone u) (toNat_TAIL_add_shift ..)
      ?_ hheld.some hcons
    rw [toNat_HEAD_add_shift_of_lt (hfits rfl),h.consistent.stride]
  · exact h.goto (.readIdx ..) hold trivial False.elim hcons

theorem Inv.step (h : Inv n s o) (hn : n ≠ 0) (hs : s ≠ 0) (hsize : n.toNat * s.toNat < 2^32)
    {e : Event Tid} (he : Orderly n s o.config e) : Inv n s (o.step e) := by
  obtain ⟨hfits,hfresh,hlap⟩ := he
  have hlen : n.toNat < 2^32 :=
    (Nat.le_mul_of_pos_right _ (BitVec.toNat_pos_of_ne_zero hs)).trans_lt hsize
  have hcons : Consistent s (o.config.step e) := h.consistent.step hs hfits hfresh
  cases e with
  | write u bucket =>
    change Inv n s ⟨o.config.step (.write u bucket),o.samples,o.delivered⟩
    rw [Config.step] at hcons ⊢
    split_ifs at hcons ⊢ with hfree
    · refine h.goto (.xadd ..) ?_ trivial False.elim hcons
      cases hpc : o.config.pc u <;> rw [hpc] at hfree <;> first | rfl | cases hfree
    · exact h
  | read u =>
    change Inv n s ⟨o.config.step (.read u),o.samples,o.delivered⟩
    rw [Config.step] at hcons ⊢
    split_ifs at hcons ⊢ with hfree
    · refine h.goto (.readIdx ..) ?_ trivial False.elim hcons
      cases hpc : o.config.pc u <;> rw [hpc] at hfree <;> first | rfl | cases hfree
    · exact h
  | access t =>
    change Consistent s (o.config.access t) at hcons
    rw [Unwrapped] at hfits
    rw [Fresh] at hfresh
    rw [NotLapped] at hlap
    cases hpc : o.config.pc t with
    | idle | returned | overrun =>
      have hsame : o.step (.access t) = o := by
        simp only [Observed.step,Config.step,Config.access,hpc]
      rw [hsame]
      exact h
    | xadd bucket =>
      rw [hpc] at hfits hlap
      have hstep : o.step (.access t) =
          ⟨o.config.access t,o.samples ++ [bucket],o.delivered⟩ := by
        simp only [Observed.step,Config.step,hpc]
      rw [hstep]
      exact h.xadd hn hs hlen hpc hfits (hlap rfl) hcons
    | copyIn midx bucket =>
      have hstep : o.step (.access t) = ⟨o.config.access t,o.samples,o.delivered⟩ := by
        simp only [Observed.step,Config.step,hpc]
      rw [hstep]
      exact h.copyIn hn hs hsize hpc hcons
    | loadIdx =>
      have hstep : o.step (.access t) = ⟨o.config.access t,o.samples,o.delivered⟩ := by
        simp only [Observed.step,Config.step,hpc]
      rw [hstep]
      have howes : (o.config.pc t).Owes n := by
        rw [hpc]
        trivial
      have hahead := (h.places t).ahead howes
      rw [Config.access,hpc] at hcons ⊢
      exact h.goto (.storeIdx ..) (by rw [hpc]; rfl) ⟨hahead,rfl⟩ (fun _ => howes) hcons
    | storeIdx word reserved =>
      rw [hpc] at hfits hfresh
      have hstep : o.step (.access t) = ⟨o.config.access t,o.samples,o.delivered⟩ := by
        simp only [Observed.step,Config.step,hpc]
      rw [hstep]
      exact h.storeIdx hpc hfresh.1 hfits hcons
    | readIdx stores =>
      have hstep : o.step (.access t) = ⟨o.config.access t,o.samples,o.delivered⟩ := by
        simp only [Observed.step,Config.step,hpc]
      rw [hstep]
      exact h.readIdx hlen hpc hcons
    | copyOut midx stores =>
      have hstep : o.step (.access t) = ⟨o.config.access t,o.samples,o.delivered⟩ := by
        simp only [Observed.step,Config.step,hpc]
      rw [hstep]
      have hheld := h.places t
      rw [hpc] at hheld
      have hold : (o.config.pc t).copying = none := by rw [hpc]; rfl
      rw [Config.access,hpc] at hcons ⊢
      dsimp only at hcons ⊢
      split_ifs at hcons ⊢
      · exact h.goto .overrun hold trivial False.elim hcons
      · exact h.goto (.cmpxchg ..) hold hheld False.elim hcons
    | cmpxchg midx stores =>
      rw [hpc] at hfits
      have hstep : ∃ delivered, o.step (.access t) = ⟨o.config.access t,o.samples,delivered⟩ :=
        ⟨_,by simp only [Observed.step,Config.step,hpc]; rfl⟩
      obtain ⟨delivered,hstep⟩ := hstep
      rw [hstep]
      exact h.cmpxchg hpc hfits hcons delivered

omit [DecidableEq Tid] in
lemma inv_init {mem : Memory} {l : Nbblist} (hl : initClist (some mem) n s = some l) :
    Inv n s (Observed.init l : Observed Tid) := by
  have hcons : Consistent s (Config.init l : Config Tid) := consistent_init hl
  obtain rfl := Option.some.inj hl
  have hhead : (HEAD 0).toNat = 0 := by decide
  refine ⟨hcons,rfl,rfl,?_,?_,fun _ => trivial,fun t u ht => ht.elim,fun k bucket hbucket => ?_⟩
  · change s.toNat ∣ (HEAD 0).toNat
    rw [hhead]
    exact dvd_zero _
  · change (HEAD 0).toNat ≤ _
    rw [hhead]
    exact Nat.zero_le _
  · cases hbucket

end Inv

/-- A read has copied the sample of the position it was handed. -/
def Intact (s : U64) (samples : List Memory) (d : ℕ × List Byte) : Prop :=
  ∃ k bucket, samples[k]? = some bucket ∧ d = (k * s.toNat,segment bucket 0 s.toNat)

/-- A read that has come to its exchange has copied a short entry, and a whole sample if the
exchange would succeed. -/
def CopiedWhole (s : U64) (idx : U64) (samples : List Memory) : Pc → Prop
  | .cmpxchg midx stores =>
    ¬ sizeofPointer < s ∧ (idx = midx → Intact s samples ((HEAD midx).toNat,copied stores))
  | _ => True

/-- What the reads of an orderly run have brought. -/
structure Reads {Tid : Type} (s : U64) (o : Observed Tid) : Prop where
  whole : ∀ t, CopiedWhole s o.config.list.idx o.samples (o.config.pc t)
  intact : ∀ d ∈ o.delivered, Intact s o.samples d
  handed : o.delivered.map Prod.fst = o.config.handed
  short : sizeofPointer < s → o.delivered = []

section Reads
variable {Tid : Type} [DecidableEq Tid] {n s : U64} {o : Observed Tid} {t : Tid}

lemma Intact.append {samples : List Memory} {d : ℕ × List Byte} (h : Intact s samples d)
    (bucket : Memory) : Intact s (samples ++ [bucket]) d := by
  obtain ⟨k,bucket',hbucket,hd⟩ := h
  obtain ⟨hlen,-⟩ := List.getElem?_eq_some_iff.mp hbucket
  exact ⟨k,bucket',(List.getElem?_append_left hlen).trans hbucket,hd⟩

/-- Once the index has moved on, the exchange of a read that loaded it before fails. -/
lemma Local.whole_of_moved {idx idx' : U64} {samples samples' : List Memory} {pc : Pc}
    (h : Local n s idx samples pc) (hwhole : CopiedWhole s idx samples pc)
    (hmoved : (HEAD idx).toNat < (HEAD idx').toNat ∨ (TAIL idx).toNat < (TAIL idx').toNat) :
    CopiedWhole s idx' samples' pc := by
  cases pc with
  | cmpxchg midx stores =>
    have hheld : Held n idx midx := h
    refine ⟨hwhole.1,fun heq => ?_⟩
    subst heq
    have hhead := hheld.head
    have htail := hheld.tail
    omega
  | _ => trivial

omit [DecidableEq Tid] in
/-- A copy of the sample at HEAD, made while no write is under way there. -/
lemma Inv.copyOut (h : Inv n s o) (hn : n ≠ 0) (hs : s ≠ 0) (hsize : n.toNat * s.toNat < 2^32)
    {midx : U64} {stores : List (Place × List Byte)} (hpc : o.config.pc t = .copyOut midx stores)
    (hsettled : ∀ u, (o.config.pc u).copying ≠ some (HEAD midx).toNat)
    (hidx : o.config.list.idx = midx) :
    Intact s o.samples ((HEAD midx).toNat,
      bytes o.config.list.buf (o.config.list.stride * (HEAD midx % o.config.list.len)).toNat
        o.config.list.stride.toNat) := by
  obtain rfl := hidx
  have hheld : Held n o.config.list.idx o.config.list.idx := by
    have hl := h.places t
    rw [hpc] at hl
    exact hl
  obtain ⟨k,hk⟩ := h.aligned
  rw [Nat.mul_comm] at hk
  have hpos : 0 < s.toNat := BitVec.toNat_pos_of_ne_zero hs
  have hlt : k < o.samples.length := by
    have hsome := hheld.some
    rw [h.tail,hk] at hsome
    exact Nat.lt_of_mul_lt_mul_right hsome
  have hlast : o.samples.length ≤ k + slots n s := by
    have hwithin := hheld.within
    rw [h.tail,hk] at hwithin
    have hd : (o.samples.length - k) * s.toNat ≤ n.toNat := by
      rw [Nat.sub_mul]
      omega
    have hle := le_slots hs hd
    omega
  refine ⟨k,o.samples[k],List.getElem?_eq_getElem hlt,?_⟩
  rw [h.consistent.stride,h.len,toNat_entry hn hsize hk,hk]
  refine congrArg (Prod.mk _) (h.stored k _ (List.getElem?_eq_getElem hlt) hlast fun u => ?_)
  rw [← hk]
  exact hsettled u

/-- The index moves on, with what the thread that moves it may have been delivered. -/
lemma Reads.move (hr : Reads s o) (h : Inv n s o) {c : Config Tid} (pc : Pc)
    {samples : List Memory} {delivered : List (ℕ × List Byte)}
    (hpc : CopiedWhole s c.list.idx samples pc)
    (hc : c.pc = Function.update o.config.pc t pc)
    (hmoved : (HEAD o.config.list.idx).toNat < (HEAD c.list.idx).toNat ∨
      (TAIL o.config.list.idx).toNat < (TAIL c.list.idx).toNat)
    (hintact : ∀ d ∈ delivered, Intact s samples d) (hhanded : delivered.map Prod.fst = c.handed)
    (hshort : sizeofPointer < s → delivered = []) : Reads s ⟨c,samples,delivered⟩ := by
  refine ⟨fun u => ?_,hintact,hhanded,hshort⟩
  simp only [hc]
  exact Update.all (P := fun _ pc => CopiedWhole s c.list.idx samples pc) hpc
    (fun u => (h.places u).whole_of_moved (hr.whole u) hmoved) u

lemma Reads.goto (hr : Reads s o) {c : Config Tid} (pc : Pc)
    (hpc : CopiedWhole s o.config.list.idx o.samples pc) (hidx : c.list.idx = o.config.list.idx)
    (hc : c.pc = Function.update o.config.pc t pc) (hhanded : c.handed = o.config.handed) :
    Reads s ⟨c,o.samples,o.delivered⟩ := by
  refine ⟨fun u => ?_,hr.intact,hr.handed.trans hhanded.symm,hr.short⟩
  simp only [hidx,hc]
  exact Update.all (P := fun _ pc => CopiedWhole s o.config.list.idx o.samples pc) hpc hr.whole u

lemma Reads.xadd (hr : Reads s o) (h : Inv n s o) (hs : s ≠ 0) {bucket : Memory}
    (hpc : o.config.pc t = .xadd bucket)
    (hfits : (TAIL o.config.list.idx).toNat + o.config.list.stride.toNat < 2^32) :
    Reads s (o.step (.access t)) := by
  have hpos : 0 < s.toNat := BitVec.toNat_pos_of_ne_zero hs
  have hstride : o.config.list.stride = s := h.consistent.stride
  simp only [Observed.step,Config.step,Config.access,hpc]
  refine hr.move h (.copyIn o.config.list.idx bucket) trivial rfl (.inr ?_)
    (fun d hd => (hr.intact d hd).append bucket) hr.handed hr.short
  rw [hstride] at hfits
  simp only [hstride]
  rw [toNat_TAIL_add,Nat.mod_eq_of_lt hfits]
  exact Nat.lt_add_of_pos_right hpos

lemma Reads.storeIdx (hr : Reads s o) (h : Inv n s o) (hs : s ≠ 0) {word : U64} {reserved : ℕ}
    (hpc : o.config.pc t = .storeIdx word reserved)
    (hfits : (HEAD word).toNat + o.config.list.stride.toNat < 2^32) :
    Reads s (o.step (.access t)) := by
  have hpos : 0 < s.toNat := BitVec.toNat_pos_of_ne_zero hs
  have hstride : o.config.list.stride = s := h.consistent.stride
  obtain ⟨-,hword⟩ : Local n s o.config.list.idx o.samples (.storeIdx word reserved) :=
    hpc ▸ h.places t
  simp only [Observed.step,Config.step,Config.access,hpc]
  refine hr.move h .idle trivial rfl (.inl ?_) hr.intact hr.handed hr.short
  rw [hstride] at hfits
  simp only [hstride]
  rw [toNat_HEAD_add_shift_of_lt hfits,hword]
  exact Nat.lt_add_of_pos_right hpos

lemma Reads.copyOut (hr : Reads s o) (h : Inv n s o) (hn : n ≠ 0) (hs : s ≠ 0)
    (hsize : n.toNat * s.toNat < 2^32) {midx : U64} {stores : List (Place × List Byte)}
    (hpc : o.config.pc t = .copyOut midx stores)
    (hsettled : ∀ u, (o.config.pc u).copying ≠ some (HEAD midx).toNat) :
    Reads s (o.step (.access t)) := by
  have hwhole := h.copyOut hn hs hsize hpc hsettled
  simp only [Observed.step,Config.step,Config.access,hpc]
  split_ifs with hlong
  · exact hr.goto .overrun trivial rfl rfl rfl
  · rw [h.consistent.stride] at hlong
    refine hr.goto (.cmpxchg ..) ⟨hlong,fun hidx => ?_⟩ rfl rfl rfl
    rw [copied,List.getLast?_concat]
    exact hwhole hidx

/-- The exchange of a read succeeds with the sample that it has copied. -/
lemma Reads.cmpxchg (hr : Reads s o) (h : Inv n s o) (hs : s ≠ 0) {midx : U64}
    {stores : List (Place × List Byte)} (hpc : o.config.pc t = .cmpxchg midx stores)
    (hfits : o.config.list.idx = midx → (HEAD midx).toNat + o.config.list.stride.toNat < 2^32) :
    Reads s (o.step (.access t)) := by
  have hpos : 0 < s.toNat := BitVec.toNat_pos_of_ne_zero hs
  have hstride : o.config.list.stride = s := h.consistent.stride
  obtain ⟨hshort,hwhole⟩ : CopiedWhole s o.config.list.idx o.samples (.cmpxchg midx stores) :=
    hpc ▸ hr.whole t
  simp only [Observed.step,Config.step,Config.access,hpc]
  split_ifs with hidx
  · refine hr.move h (.returned ..) trivial rfl (.inl ?_) (fun d hd => ?_) ?_
      fun hlong => absurd hlong hshort
    · have hfits' := hfits hidx
      rw [hstride] at hfits'
      simp only [hstride,hidx]
      rw [toNat_HEAD_add_shift_of_lt hfits']
      exact Nat.lt_add_of_pos_right hpos
    · rcases List.mem_append.mp hd with hd | hd
      · exact hr.intact d hd
      · rw [List.mem_singleton.mp hd]
        exact hwhole hidx
    · rw [List.map_append,hr.handed]
      rfl
  · exact hr.goto (.readIdx ..) trivial rfl rfl rfl

theorem Reads.step (hr : Reads s o) (h : Inv n s o) (hn : n ≠ 0) (hs : s ≠ 0)
    (hsize : n.toNat * s.toNat < 2^32) {e : Event Tid} (he : Orderly n s o.config e)
    (hsettled : Settled o.config e) : Reads s (o.step e) := by
  obtain ⟨hfits,-,-⟩ := he
  cases e with
  | write u bucket =>
    change Reads s ⟨o.config.step (.write u bucket),o.samples,o.delivered⟩
    rw [Config.step]
    split_ifs
    · exact hr.goto (.xadd bucket) trivial rfl rfl rfl
    · exact hr
  | read u =>
    change Reads s ⟨o.config.step (.read u),o.samples,o.delivered⟩
    rw [Config.step]
    split_ifs
    · exact hr.goto (.readIdx []) trivial rfl rfl rfl
    · exact hr
  | access t =>
    rw [Unwrapped] at hfits
    rw [Settled] at hsettled
    cases hpc : o.config.pc t with
    | idle | returned | overrun =>
      have hsame : o.step (.access t) = o := by
        simp only [Observed.step,Config.step,Config.access,hpc]
      rw [hsame]
      exact hr
    | xadd bucket =>
      rw [hpc] at hfits
      exact hr.xadd h hs hpc hfits
    | copyIn midx bucket =>
      simp only [Observed.step,Config.step,Config.access,hpc]
      refine hr.goto (if HEAD midx + o.config.list.len = TAIL midx then .loadIdx else .idle)
        ?_ rfl rfl rfl
      split_ifs <;> trivial
    | loadIdx =>
      simp only [Observed.step,Config.step,Config.access,hpc]
      exact hr.goto (.storeIdx ..) trivial rfl rfl rfl
    | storeIdx word reserved =>
      rw [hpc] at hfits
      exact hr.storeIdx h hs hpc hfits
    | readIdx stores =>
      simp only [Observed.step,Config.step,Config.access,hpc]
      split_ifs
      · exact hr
      · exact hr.goto (.returned ..) trivial rfl rfl rfl
      · exact hr.goto (.copyOut ..) trivial rfl rfl rfl
    | copyOut midx stores =>
      rw [hpc] at hsettled
      exact hr.copyOut h hn hs hsize hpc (hsettled _ rfl)
    | cmpxchg midx stores =>
      rw [hpc] at hfits
      exact hr.cmpxchg h hs hpc hfits

end Reads

section Main
variable {Tid : Type} [DecidableEq Tid] {n s : U64} {l : Nbblist} {mem : Memory}
  {events : List (Event Tid)}

/-- Writes and reads of any number of threads in any order: as long as neither half of the index
wraps, no update of the index is lost and no write comes round to one that is still copying, each
of the last samples is in its own slot whole from when its writer has copied it. -/
theorem overlapping_writes_keep (hn : n ≠ 0) (hs : s ≠ 0) (hsize : n.toNat * s.toNat < 2^32)
    (hl : initClist (some mem) n s = some l)
    (hrun : Admits step (Orderly n s) (Config.init l : Config Tid) events) :
    KeepsLast n s (events.foldl Observed.step (Observed.init l)) := by
  have hobserved : Admits Observed.step (fun o => Orderly n s o.config) (Observed.init l) events :=
    (admits_comap Observed.config (fun _ _ => rfl) (Observed.init l) events).mpr hrun
  exact (hobserved.invariant (I := Inv n s) (fun o e h he => h.step hn hs hsize he)
    (inv_init hl)).stored

/-- Two writes, of which the second copies its sample first, and a read between the copies. -/
theorem overlapping_writes_keep_two :
    let events : List (Event Bool) := [.write true fun _ => 7,.access true,
      .write false fun _ => 8,.access false,.access false,.read false,.access false,.access false,
      .access true]
    KeepsLast 2 1 (events.foldl Observed.step (Observed.init ⟨1,2,0,fun _ => 0,26⟩)) :=
  overlapping_writes_keep (n := 2) (s := 1) (by decide) (by decide) (by decide)
    (rfl : initClist (some fun _ => 0) 2 1 = some ⟨1,2,0,fun _ => 0,26⟩) (by decide)

/-- If moreover no read copies a sample that is still being written, the reads that succeed are
handed the samples whole, in the order in which the writes reserved their positions, none twice.
There are such reads only of entries that are no longer than a pointer. -/
theorem overlapping_reads_in_order (hn : n ≠ 0) (hs : s ≠ 0) (hsize : n.toNat * s.toNat < 2^32)
    (hl : initClist (some mem) n s = some l)
    (hrun : Admits step (fun c e => Orderly n s c e ∧ Settled c e) (Config.init l : Config Tid)
      events) :
    let o := events.foldl Observed.step (Observed.init l)
    o.delivered.Pairwise (fun d e => d.1 < e.1) ∧ (∀ d ∈ o.delivered, Intact s o.samples d) ∧
      (sizeofPointer < s → o.delivered = []) := by
  have hobserved : Admits Observed.step (fun o e => Orderly n s o.config e ∧ Settled o.config e)
      (Observed.init l) events :=
    (admits_comap Observed.config (fun _ _ => rfl) (Observed.init l) events).mpr hrun
  have hinit : Inv n s (Observed.init l : Observed Tid) ∧ Reads s (Observed.init l : Observed Tid) :=
    ⟨inv_init hl,fun _ => trivial,fun d hd => absurd hd List.not_mem_nil,rfl,fun _ => rfl⟩
  obtain ⟨h,hr⟩ := hobserved.invariant (I := fun o => Inv n s o ∧ Reads s o)
    (fun o e h he => ⟨h.1.step hn hs hsize he.1,h.2.step h.1 hn hs hsize he.1 he.2⟩) hinit
  refine ⟨?_,hr.intact,hr.short⟩
  have hhanded := h.consistent.handed
  rw [← hr.handed,List.pairwise_map] at hhanded
  exact hhanded

/-- Two writes that copy the other way round, and a read whose first exchange fails because of a
third write. -/
theorem overlapping_reads_in_order_retry :
    let events : List (Event Bool) := [.write true fun _ => 7,.access true,
      .write false fun _ => 8,.access false,.access false,.access true,.read false,.access false,
      .access false,.write true fun _ => 9,.access true,.access true,.access false,.access false,
      .access false,.access false]
    let o := events.foldl Observed.step (Observed.init ⟨1,3,0,fun _ => 0,27⟩)
    o.delivered.Pairwise (fun d e => d.1 < e.1) ∧ (∀ d ∈ o.delivered, Intact 1 o.samples d) ∧
      (sizeofPointer < 1 → o.delivered = []) :=
  overlapping_reads_in_order (n := 3) (s := 1) (by decide) (by decide) (by decide)
    (rfl : initClist (some fun _ => 0) 3 1 = some ⟨1,3,0,fun _ => 0,27⟩) (by decide)

/-- A read that is handed a position before the write has copied the sample there gets what the
buffer held. -/
example :
    let events : List (Event Bool) := [.write true fun _ => 7,.access true,.read false,
      .access false,.access false,.access false]
    (events.foldl Observed.step (Observed.init ⟨1,3,0,fun _ => 0,27⟩)).delivered = [(0,[0])] := by
  decide

end Main
end PmuMin.NbBoundedList
