import PmuMin.Breader.Seq
import PmuMin.Library.Digits

/-! The text that `/proc/breader_seq` hands out, and what a reader of the text gets back. -/
namespace PmuMin.Breader
open SeqFile Digits

/-- The characters that a traversal puts out. -/
def text (out : List String) : List Char := (String.join out).toList

/-- The hexadecimal numbers of the first line of a text, each behind a comma. -/
def wordsOf (cs : List Char) : List ℕ := decode 16 ',' (cs.takeWhile (· ≠ '\n'))

/-- The words that the records from a position on show. -/
def shown (mem : ℕ → Word) (p n : ℕ) : List ℕ :=
  (List.range' p n).flatMap fun v => (breaderSeqReads v).map fun i => (mem i).toNat

lemma separates_comma : Separates 16 ',' := by
  unfold Separates
  decide

lemma toList_seqPrintf (words : List Word) :
    (String.join (words.map seqPrintf)).toList = encode 16 ',' (words.map BitVec.toNat) := by
  rw [String.toList_join,encode,List.flatMap_map,List.flatMap_map]
  apply List.flatMap_congr
  intro word _
  have hcomma : ",".toList = [','] := by decide
  rw [seqPrintf,String.toList_append,hcomma,String.toList_ofList,List.singleton_append]

lemma newline_not_mem (ns : List ℕ) : '\n' ∉ encode 16 ',' ns := by
  intro hmem
  have hdigit : ∀ d < 16, '\n' ≠ d.digitChar := by decide
  rcases mem_encode (by decide) hmem with h | ⟨d,hd,h⟩
  · exact absurd h (by decide)
  · exact hdigit d hd h

/-- A line of words, up to its end, reads back as the words. -/
lemma wordsOf_line (ns : List ℕ) : wordsOf (encode 16 ',' ns ++ ['\n']) = ns := by
  have hline : (encode 16 ',' ns ++ ['\n']).takeWhile (· ≠ '\n') = encode 16 ',' ns := by
    rw [List.takeWhile_append_of_pos]
    · simp
    · intro c hc
      exact decide_eq_true fun h => newline_not_mem ns (h ▸ hc)
  rw [wordsOf,hline,decode_encode (by decide) (by decide) separates_comma]

lemma shown_length (mem : ℕ → Word) (p n : ℕ) : (shown mem p n).length = 8*n := by
  induction n generalizing p with
  | zero => rfl
  | succ n ih =>
    have hcons : shown mem p (n+1) =
        ((breaderSeqReads p).map fun i => (mem i).toNat) ++ shown mem (p+1) n := rfl
    rw [hcons,List.length_append,ih,List.length_map,breaderSeqReads,List.length_map,
      List.length_range]
    omega

/-- The record of a word shows the word and the seven behind it. -/
lemma shown_getElem (mem : ℕ → Word) {p n j k : ℕ} (hj : j < n) (hk : k < 8) :
    (shown mem p n)[8*j+k]? = some (mem (p+j+k)).toNat := by
  induction n generalizing p j with
  | zero => exact absurd hj (Nat.not_lt_zero j)
  | succ n ih =>
    have hcons : shown mem p (n+1) =
        ((breaderSeqReads p).map fun i => (mem i).toNat) ++ shown mem (p+1) n := rfl
    have hlen : ((breaderSeqReads p).map fun i => (mem i).toNat).length = 8 := by
      rw [List.length_map,breaderSeqReads,List.length_map,List.length_range]
    rw [hcons]
    cases j with
    | zero =>
      rw [List.getElem?_append_left (by omega),breaderSeqReads]
      simp [hk]
    | succ j =>
      rw [List.getElem?_append_right (by omega),hlen]
      have hidx : 8*(j+1) + k - 8 = 8*j + k := by omega
      have hword : p + 1 + j + k = p + (j+1) + k := by omega
      rw [hidx,ih (Nat.lt_of_succ_lt_succ hj),hword]

/-- From any position a traversal ends, and its text reads back: for each word from the position to
the end of the buffer there are eight numbers, the word and the seven words behind it. -/
theorem seq_text_decodes (mem : ℕ → Word) (p : BitVec 64) :
    ∃ fuel out, traversal (breaderSeqOps mem) fuel p = some out ∧
      (wordsOf (text out)).length = 8*(DATA_BUFFER_LEN - p.toNat) ∧
      ∀ j k, p.toNat + j < DATA_BUFFER_LEN → k < 8 →
        (wordsOf (text out))[8*j+k]? = some (mem (p.toNat+j+k)).toNat := by
  refine ⟨_,_,traversal_eq (breaderSeqShow mem) breaderSeqStop le_rfl,?_⟩
  have hrecords : (List.range' p.toNat (DATA_BUFFER_LEN - p.toNat)).flatMap (breaderSeqShow mem) =
      ((List.range' p.toNat (DATA_BUFFER_LEN - p.toNat)).flatMap fun v =>
        (breaderSeqReads v).map mem).map seqPrintf := by
    rw [List.map_flatMap]
    apply List.flatMap_congr
    intro v _
    rw [breaderSeqShow,List.map_map]
    rfl
  have hshown : ((List.range' p.toNat (DATA_BUFFER_LEN - p.toNat)).flatMap fun v =>
      (breaderSeqReads v).map mem).map BitVec.toNat =
        shown mem p.toNat (DATA_BUFFER_LEN - p.toNat) := by
    rw [List.map_flatMap]
    apply List.flatMap_congr
    intro v _
    rw [List.map_map]
    rfl
  have htext : text ((List.range' p.toNat (DATA_BUFFER_LEN - p.toNat)).flatMap (breaderSeqShow mem)
      ++ breaderSeqStop) = encode 16 ',' (shown mem p.toNat (DATA_BUFFER_LEN - p.toNat)) ++
        ['\n'] := by
    rw [hrecords,text,String.toList_join,List.flatMap_append,← String.toList_join,
      toList_seqPrintf,hshown]
    rfl
  rw [htext,wordsOf_line]
  refine ⟨shown_length mem _ _,fun j k hj hk => ?_⟩
  exact shown_getElem mem (by omega) hk

end PmuMin.Breader
