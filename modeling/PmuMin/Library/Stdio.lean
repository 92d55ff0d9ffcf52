import PmuMin.Library.Loop
import Mathlib.Data.List.Basic

/-! Streams: `fread`, `feof` and `rewind` over a device whose read attempts give an item, the end of
file or an error. -/
namespace Stdio
open Loop
variable {α β : Type*}

/-- What an attempt to get the next item gives. -/
inductive Outcome (β : Type*) where
  | item (b : β)
  | eof
  | error
  deriving DecidableEq, Repr

/-- A device: the outcome of every attempt since the last rewind, for every number of rewinds. -/
abbrev Device (β : Type*) := ℕ → ℕ → Outcome β

/-- The attempts of a file that holds the items `b`. -/
def file (b : List β) (attempt : ℕ) : Outcome β := (b[attempt]?).elim .eof .item

structure Stream where
  rewinds : ℕ
  attempts : ℕ
  eof : Bool
  error : Bool
  deriving DecidableEq, Repr

def fopen : Stream := ⟨0,0,false,false⟩

def feof (s : Stream) : Bool := s.eof

/-- Back to the front, with both indicators cleared. -/
def rewind (s : Stream) : Stream := ⟨s.rewinds+1,0,false,false⟩

variable (dev : Device β)

/-- At most `n` items; only the end of file sets the indicator, and no attempt is made once it is
set. -/
def fread : ℕ → Stream → List β × Stream
  | 0, s => ([],s)
  | n+1, s =>
    if s.eof then ([],s)
    else
      let next := { s with attempts := s.attempts+1 }
      match dev s.rewinds s.attempts with
      | .item b =>
        let rest := fread n next
        (b :: rest.1,rest.2)
      | .eof => ([],{ next with eof := true })
      | .error => ([],{ next with error := true })

/-- One read, whose items are added to a value. -/
def readStep (add : α → List β → α) (n : ℕ) (p : α × Stream) : α × Stream :=
  let r := fread dev n p.2
  (add p.1 r.1,r.2)

/-- `while (!feof(file))`. -/
def readAll (add : α → List β → α) (n : ℕ) (p : α × Stream) (fuel : ℕ) : Option (α × Stream) :=
  whileLoop (fun p => !feof p.2) (readStep dev add n) fuel p

variable {dev}

@[simp] lemma not_feof_eq_true {s : Stream} : (!feof s) = true ↔ s.eof = false := by simp [feof]

@[simp] lemma not_feof_eq_false {s : Stream} : (!feof s) = false ↔ s.eof = true := by simp [feof]

lemma length_fread (n : ℕ) (s : Stream) : (fread dev n s).1.length ≤ n := by
  fun_induction fread dev n s with
  | case1 s => exact Nat.zero_le _
  | case2 n s heof => exact Nat.zero_le _
  | case3 n s heof next b hitem rest ih => exact Nat.succ_le_succ ih
  | case4 n s heof next hend => exact Nat.zero_le _
  | case5 n s heof next herror => exact Nat.zero_le _

lemma rewinds_fread (n : ℕ) (s : Stream) : (fread dev n s).2.rewinds = s.rewinds := by
  fun_induction fread dev n s with
  | case1 s => rfl
  | case2 n s heof => rfl
  | case3 n s heof next b hitem rest ih => exact ih
  | case4 n s heof next hend => rfl
  | case5 n s heof next herror => rfl

/-- The indicator is set by the end of file alone. -/
lemma exists_eof_of_fread {n : ℕ} {s : Stream} (h : (fread dev n s).2.eof = true) :
    s.eof = true ∨ n ≠ 0 ∧ ∃ a, dev s.rewinds a = .eof := by
  fun_induction fread dev n s with
  | case1 s => exact Or.inl h
  | case2 n s heof => exact Or.inl h
  | case3 n s heof next b hitem rest ih =>
    exact (ih h).imp_right fun hend => ⟨Nat.succ_ne_zero n,hend.2⟩
  | case4 n s heof next hend => exact Or.inr ⟨Nat.succ_ne_zero n,s.attempts,hend⟩
  | case5 n s heof next herror => exact Or.inl h

/-- No read gets past an end of file without the indicator, and each makes an attempt. -/
lemma attempts_fread {n a : ℕ} {s : Stream} (ha : dev s.rewinds a = .eof) (hs : s.attempts ≤ a)
    (h : (fread dev n s).2.eof = false) :
    s.attempts + min n 1 ≤ (fread dev n s).2.attempts ∧ (fread dev n s).2.attempts ≤ a := by
  have hlt : ∀ s : Stream, dev s.rewinds a = .eof → s.attempts ≤ a →
      dev s.rewinds s.attempts ≠ .eof → s.attempts + 1 ≤ a := by
    intro s ha hs hne
    apply Nat.lt_of_le_of_ne hs
    rintro rfl
    exact hne ha
  fun_induction fread dev n s with
  | case1 s => exact ⟨Nat.le_refl _,hs⟩
  | case2 n s heof => exact absurd (heof.symm.trans h) (by decide)
  | case3 n s heof next b hitem rest ih =>
    have hnext := hlt s ha hs (by simp [hitem])
    obtain ⟨hmore,hle⟩ := ih ha hnext h
    have hone : s.attempts + min (n+1) 1 ≤ next.attempts := Nat.add_le_add_left (Nat.min_le_right ..) _
    exact ⟨Nat.le_trans hone (Nat.le_trans (Nat.le_add_right ..) hmore),hle⟩
  | case4 n s heof next hend => exact absurd h (by simp)
  | case5 n s heof next herror =>
    have hnext := hlt s ha hs (by simp [herror])
    exact ⟨Nat.add_le_add_left (Nat.min_le_right ..) _,hnext⟩

lemma file_eq_item_iff {b : List β} {i : ℕ} {c : β} : file b i = .item c ↔ b[i]? = some c := by
  unfold file
  cases b[i]? <;> simp

lemma file_eq_eof_iff {b : List β} {i : ℕ} : file b i = .eof ↔ b.length ≤ i := by
  rw [← List.getElem?_eq_none_iff]
  unfold file
  cases b[i]? <;> simp

lemma file_ne_error (b : List β) (i : ℕ) : file b i ≠ .error := by
  unfold file
  cases b[i]? <;> simp

/-- Of a file, a read gets the next items, and the indicator if it asked for more than there are. -/
lemma fread_file {b : List β} {n : ℕ} {s : Stream} (hdev : dev s.rewinds = file b)
    (hs : s.attempts ≤ b.length) (heof : s.eof = false) :
    (fread dev n s).1 = (b.drop s.attempts).take n ∧
      (fread dev n s).2.attempts = min (s.attempts + n) (b.length + 1) ∧
      ((fread dev n s).2.eof = true ↔ b.length < s.attempts + n) := by
  fun_induction fread dev n s with
  | case1 s =>
    refine ⟨rfl,?_,?_⟩
    · exact (Nat.min_eq_left (Nat.le_succ_of_le hs)).symm
    · exact iff_of_false (ne_true_of_eq_false heof) (Nat.not_lt.mpr hs)
  | case2 n s heof' => exact absurd (heof'.symm.trans heof) (by decide)
  | case3 n s heof' next c hitem rest ih =>
    rw [hdev,file_eq_item_iff] at hitem
    obtain ⟨hlt,hc⟩ := List.getElem?_eq_some_iff.mp hitem
    obtain ⟨hchars,hattempts,hend⟩ := ih hdev hlt heof
    have hcount : next.attempts + n = s.attempts + (n+1) := by
      change s.attempts + 1 + n = _
      omega
    rw [hcount] at hattempts hend
    refine ⟨?_,hattempts,hend⟩
    rw [List.drop_eq_getElem_cons hlt,hc,List.take_succ_cons]
    exact congrArg (c :: ·) hchars
  | case4 n s heof' next hend =>
    rw [hdev,file_eq_eof_iff] at hend
    have hlen : s.attempts = b.length := Nat.le_antisymm hs hend
    refine ⟨?_,?_,?_⟩
    · rw [hlen,List.drop_length,List.take_nil]
    · change s.attempts + 1 = _
      omega
    · exact iff_of_true rfl (by omega)
  | case5 n s heof' next herror =>
    rw [hdev] at herror
    exact absurd herror (file_ne_error b s.attempts)

lemma fread_of_eof {s : Stream} (n : ℕ) (heof : s.eof = true) : fread dev n s = ([],s) := by
  cases n with
  | zero => rfl
  | succ n => rw [fread,if_pos heof]

section ReadAll
variable {add : α → List β → α} {n : ℕ} {p r : α × Stream}

theorem steady_readAll (dev : Device β) (add : α → List β → α) (n : ℕ) (p : α × Stream) :
    Steady (readAll dev add n p) :=
  steady_whileLoop _ _ _

lemma rewinds_iterate (dev : Device β) (add : α → List β → α) (n : ℕ) (p : α × Stream) (k : ℕ) :
    ((readStep dev add n)^[k] p).2.rewinds = p.2.rewinds := by
  induction k with
  | zero => rfl
  | succ k ih =>
    rw [Function.iterate_succ_apply']
    exact (rewinds_fread n _).trans ih

/-- Every read makes an attempt, until the one at the end of file. -/
lemma attempts_iterate (add : α → List β → α) {a : ℕ} (hn : n ≠ 0) (ha : dev p.2.rewinds a = .eof)
    (hp : p.2.attempts ≤ a) (k : ℕ) :
    ((readStep dev add n)^[k] p).2.eof = true ∨
      p.2.attempts + k ≤ ((readStep dev add n)^[k] p).2.attempts ∧
        ((readStep dev add n)^[k] p).2.attempts ≤ a := by
  induction k with
  | zero => exact Or.inr ⟨le_rfl,hp⟩
  | succ k ih =>
    have hrewinds := rewinds_iterate dev add n p k
    rw [Function.iterate_succ_apply']
    cases ih with
    | inl heof =>
      apply Or.inl
      rw [readStep,fread_of_eof n heof]
      exact heof
    | inr hmore =>
      obtain ⟨hmany,hle⟩ := hmore
      cases hend : (readStep dev add n ((readStep dev add n)^[k] p)).2.eof with
      | true => exact Or.inl rfl
      | false =>
        obtain ⟨hmore,hle'⟩ := attempts_fread (hrewinds ▸ ha) hle hend
        have hone : min n 1 = 1 := Nat.min_eq_right (Nat.one_le_iff_ne_zero.mpr hn)
        refine Or.inr ⟨?_,hle'⟩
        calc p.2.attempts + (k+1) ≤ ((readStep dev add n)^[k] p).2.attempts + min n 1 := by omega
          _ ≤ _ := hmore

/-- Only an end of file stops the reads, and only reads of something meet it. -/
lemma exists_eof_of_iterate {k : ℕ} (heof : p.2.eof = false)
    (hend : ((readStep dev add n)^[k] p).2.eof = true) :
    n ≠ 0 ∧ ∃ a, dev p.2.rewinds a = .eof := by
  induction k with
  | zero => exact absurd (heof.symm.trans hend) (by decide)
  | succ k ih =>
    rw [Function.iterate_succ_apply'] at hend
    have hrewinds := rewinds_iterate dev add n p k
    cases exists_eof_of_fread hend with
    | inl hbefore => exact ih hbefore
    | inr hn => rwa [hrewinds] at hn

/-- Reading from the front ends exactly if something is asked for and the device comes to its end. -/
theorem exists_ends_readAll_iff (hattempts : p.2.attempts = 0) (heof : p.2.eof = false) :
    (∃ r, Ends (readAll dev add n p) r) ↔ n ≠ 0 ∧ ∃ a, dev p.2.rewinds a = .eof := by
  apply exists_ends_whileLoop_iff.trans
  simp only [not_feof_eq_false]
  constructor
  · rintro ⟨k,hk⟩
    exact exists_eof_of_iterate heof hk
  · rintro ⟨hn,a,ha⟩
    refine ⟨a+1,(attempts_iterate add hn ha (hattempts ▸ Nat.zero_le a) (a+1)).resolve_right ?_⟩
    rintro ⟨hmany,hle⟩
    omega

/-- What holds of the items read so far when a file of the items `b` is read in chunks. -/
structure ReadSoFar (add : α → List β → α) (n : ℕ) (b : List β) (p₀ p : α × Stream) : Prop where
  rewinds : p.2.rewinds = p₀.2.rewinds
  within : p.2.eof = false → p.2.attempts ≤ b.length
  beyond : p.2.eof = true → b.length < p.2.attempts
  chunks : ∃ chunks : List (List β), chunks.flatten = b.take p.2.attempts ∧
    (∀ c ∈ chunks, c.length ≤ n) ∧ p.1 = chunks.foldl add p₀.1

lemma ReadSoFar.step {b : List β} {q : α × Stream} (h : ReadSoFar add n b p q)
    (hdev : dev p.2.rewinds = file b) (heof : q.2.eof = false) :
    ReadSoFar add n b p (readStep dev add n q) := by
  obtain ⟨hchars,hattempts,hend⟩ := fread_file (n := n) (hdev ▸ congrArg dev h.rewinds)
    (h.within heof) heof
  obtain ⟨chunks,hflat,hlen,hvalue⟩ := h.chunks
  refine ⟨(rewinds_fread n q.2).trans h.rewinds,fun hmore => ?_,fun hmore => ?_,
    chunks ++ [(fread dev n q.2).1],?_,?_,?_⟩
  · have hle := mt hend.mpr (ne_true_of_eq_false hmore)
    change (fread dev n q.2).2.attempts ≤ _
    omega
  · have hlt := hend.mp hmore
    change _ < (fread dev n q.2).2.attempts
    omega
  · have htake : b.take (fread dev n q.2).2.attempts = b.take (q.2.attempts + n) := by
      rw [hattempts,← List.take_take,List.take_of_length_le (i := b.length + 1) (Nat.le_succ _)]
    change _ = b.take (fread dev n q.2).2.attempts
    rw [List.flatten_append,hflat,hchars,htake,List.take_add,List.flatten_singleton]
  · exact List.forall_mem_append.mpr ⟨hlen,List.forall_mem_singleton.mpr (length_fread n q.2)⟩
  · rw [List.foldl_append,← hvalue]
    rfl

/-- A file is read completely, in chunks of at most `n` items. -/
theorem readAll_file {b : List β} (hattempts : p.2.attempts = 0) (heof : p.2.eof = false)
    (hdev : dev p.2.rewinds = file b) (hr : Ends (readAll dev add n p) r) :
    ∃ chunks : List (List β), chunks.flatten = b ∧ (∀ c ∈ chunks, c.length ≤ n) ∧
      r.1 = chunks.foldl add p.1 := by
  have hstart : ReadSoFar add n b p p := by
    refine ⟨rfl,fun _ => ?_,fun h => absurd (heof.symm.trans h) (by decide),[],?_,?_,rfl⟩
    · rw [hattempts]
      exact Nat.zero_le _
    · rw [hattempts,List.take_zero,List.flatten_nil]
    · exact List.forall_mem_nil _
  have hstep : ∀ q : α × Stream, (!feof q.2) = true → ReadSoFar add n b p q →
      ReadSoFar add n b p (readStep dev add n q) := by
    intro q hcond hq
    exact hq.step hdev (not_feof_eq_true.mp hcond)
  obtain ⟨hsoFar,hcond⟩ := hr.whileLoop_inv hstep hstart
  obtain ⟨chunks,hflat,hlen,hvalue⟩ := hsoFar.chunks
  have hlt := hsoFar.beyond (not_feof_eq_false.mp hcond)
  rw [List.take_of_length_le (Nat.le_of_lt hlt)] at hflat
  exact ⟨chunks,hflat,hlen,hvalue⟩

/-- The stream is not rewound by the reads. -/
theorem rewinds_of_ends_readAll (hr : Ends (readAll dev add n p) r) :
    r.2.rewinds = p.2.rewinds := by
  obtain ⟨k,-,-,rfl⟩ := ends_whileLoop_iff.mp hr
  exact rewinds_iterate dev add n p k

end ReadAll

end Stdio
