import PmuMin.Breader.Raw
import PmuMin.Library.SeqFile

/-! The seq file of `breader_seq.c`: an iterator over the words of the buffer whose records print
eight words each. -/
namespace PmuMin.Breader
open SeqFile

/-- `__breader_seq_next`; a pointer into `data_buffer` is the index of its word. -/
def breaderSeqAt (pos : BitVec 64) : Option ℕ :=
  if BitVec.ofNat 64 DATA_BUFFER_LEN ≤ pos then none else some pos.toNat

def breaderSeqStart (pos : BitVec 64) : Option ℕ := breaderSeqAt pos

def breaderSeqNext (_v : ℕ) (pos : BitVec 64) : BitVec 64 × Option ℕ :=
  let pos := pos + 1
  (pos,breaderSeqAt pos)

/-- What `breader_seq_show` prints with the format `,%llx`. -/
def seqPrintf (word : Word) : String := "," ++ String.ofList (Nat.toDigits 16 word.toNat)

/-- The indices that `breader_seq_show` reads, one after the other. -/
def breaderSeqReads (v : ℕ) : List ℕ := (List.range 8).map (v + ·)

def breaderSeqShow (mem : ℕ → Word) (v : ℕ) : List String :=
  (breaderSeqReads v).map fun i => seqPrintf (mem i)

def breaderSeqStop : List String := ["\n"]

/-- `breader_seq_ops`; `mem` is the memory from `data_buffer` on, beyond its end too. -/
def breaderSeqOps (mem : ℕ → Word) : Ops (BitVec 64) ℕ String :=
  ⟨breaderSeqStart,breaderSeqNext,breaderSeqShow mem,breaderSeqStop⟩

/-- The same traversals, with the indices they read in place of what they print. -/
def breaderSeqIndices : Ops (BitVec 64) ℕ ℕ :=
  ⟨breaderSeqStart,breaderSeqNext,breaderSeqReads,[]⟩

/-- A traversal from a position ends, prints the words from there to the end of the buffer, each
once, and reads no other. -/
structure PrintsOnce (mem : ℕ → Word) (p : BitVec 64) : Prop where
  prints : ∃ fuel, traversal (breaderSeqOps mem) fuel p =
    some ((List.range' p.toNat (DATA_BUFFER_LEN - p.toNat)).map (fun i => seqPrintf (mem i)) ++
      breaderSeqStop)
  reads : ∀ fuel indices, traversal breaderSeqIndices fuel p = some indices →
    ∀ i ∈ indices, i < DATA_BUFFER_LEN

lemma breaderSeqAt_eq (pos : BitVec 64) :
    breaderSeqAt pos = if DATA_BUFFER_LEN ≤ pos.toNat then none else some pos.toNat := by
  have hlen : (BitVec.ofNat 64 DATA_BUFFER_LEN).toNat = DATA_BUFFER_LEN := by decide
  have hle : BitVec.ofNat 64 DATA_BUFFER_LEN ≤ pos ↔ DATA_BUFFER_LEN ≤ pos.toNat := by
    rw [BitVec.le_def,hlen]
  exact if_congr hle rfl rfl

/-- Every word up to the end of the buffer is one record, whatever a record puts out. -/
theorem traversal_eq {O : Type} (record : ℕ → List O) (stop : List O) {fuel : ℕ}
    {pos : BitVec 64} (hfuel : DATA_BUFFER_LEN - pos.toNat ≤ fuel) :
    traversal ⟨breaderSeqStart,breaderSeqNext,record,stop⟩ fuel pos =
      some ((List.range' pos.toNat (DATA_BUFFER_LEN - pos.toNat)).flatMap record ++ stop) := by
  rw [traversal]
  change records _ fuel (breaderSeqAt pos) pos = _
  induction fuel generalizing pos with
  | zero =>
    have hend : DATA_BUFFER_LEN - pos.toNat = 0 := Nat.le_zero.mp hfuel
    rw [breaderSeqAt_eq,if_pos (Nat.le_of_sub_eq_zero hend),hend]
    rfl
  | succ fuel ih =>
    rw [breaderSeqAt_eq]
    split
    · rename_i hend
      rw [Nat.sub_eq_zero_of_le hend]
      rfl
    · rename_i hin
      have hlen : DATA_BUFFER_LEN = 524288 := by decide
      have hnext : (pos + 1).toNat = pos.toNat + 1 := by
        rw [BitVec.toNat_add]
        change (pos.toNat + 1) % 2^64 = pos.toNat + 1
        omega
      have hrest := @ih (pos + 1) (by omega)
      rw [hnext] at hrest
      have hcount : DATA_BUFFER_LEN - pos.toNat = (DATA_BUFFER_LEN - (pos.toNat + 1)) + 1 := by
        omega
      rw [hcount,List.range'_succ,List.flatMap_cons,List.append_assoc]
      simp only [records,breaderSeqNext,hrest,Option.map_some]

lemma breaderSeqShow_length (mem : ℕ → Word) (v : ℕ) : (breaderSeqShow mem v).length = 8 := by
  rw [breaderSeqShow,breaderSeqReads,List.length_map,List.length_map,List.length_range]

lemma reads_past_end {p : BitVec 64} (hp : p.toNat < DATA_BUFFER_LEN) :
    ∃ fuel indices, traversal breaderSeqIndices fuel p = some indices ∧
      DATA_BUFFER_LEN ∈ indices := by
  refine ⟨_,_,traversal_eq breaderSeqReads [] le_rfl,?_⟩
  rw [List.append_nil,List.mem_flatMap]
  refine ⟨DATA_BUFFER_LEN - 1,?_,?_⟩
  · rw [List.mem_range'_1]
    omega
  · rw [breaderSeqReads,List.mem_map]
    exact ⟨1,by decide,by decide⟩

/-- From the end of the buffer on, a traversal reads nothing and prints the stop alone. -/
lemma prints_nothing (mem : ℕ → Word) {p : BitVec 64} (hend : DATA_BUFFER_LEN ≤ p.toNat) :
    PrintsOnce mem p := by
  have hnone : DATA_BUFFER_LEN - p.toNat = 0 := Nat.sub_eq_zero_of_le hend
  constructor
  · refine ⟨_,(traversal_eq (breaderSeqShow mem) breaderSeqStop le_rfl).trans ?_⟩
    rw [hnone]
    rfl
  · intro fuel indices h i hi
    have hreads := traversal_eq breaderSeqReads [] (le_refl (DATA_BUFFER_LEN - p.toNat))
    rw [hnone] at hreads
    rw [traversal_unique h hreads] at hi
    cases hi

/-- Printing every word once is left to the traversals that print nothing: a record shows its word
and the seven behind it, which the next records show again or which lie behind the end. -/
theorem prints_once_iff (mem : ℕ → Word) (p : BitVec 64) :
    PrintsOnce mem p ↔ DATA_BUFFER_LEN ≤ p.toNat := by
  constructor
  · rintro ⟨⟨fuel,hprints⟩,-⟩
    have htraversal := traversal_eq (breaderSeqShow mem) breaderSeqStop
      (le_refl (DATA_BUFFER_LEN - p.toNat))
    have hout := congrArg List.length (traversal_unique htraversal hprints)
    rw [List.length_append,List.length_append,List.length_flatMap,List.length_map,
      List.map_congr_left fun v _ => breaderSeqShow_length mem v,List.map_const',
      List.length_range'] at hout
    rw [List.sum_replicate_nat] at hout
    omega
  · exact prints_nothing mem

/-- A traversal of the whole buffer reads the word behind its end. -/
theorem last_record_reads_outside : ¬ PrintsOnce (fun _ => 0) 0 := by
  rintro ⟨-,hreads⟩
  obtain ⟨fuel,indices,htraversal,hmem⟩ := reads_past_end (p := 0) (by decide)
  exact lt_irrefl _ (hreads fuel indices htraversal _ hmem)

end PmuMin.Breader
