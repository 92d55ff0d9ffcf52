import Mathlib.Data.Nat.Notation
import Mathlib.Data.List.Basic

/-! Lists of numbers as text, each written behind a separator, and the reader that takes the text
one character at a time. -/
namespace Digits

/-- The text of a list of numbers: each one in base `b` behind a separator. -/
def encode (b : ℕ) (sep : Char) (ns : List ℕ) : List Char :=
  ns.flatMap fun n => sep :: Nat.toDigits b n

/-- The value of a digit of a base up to 16. -/
def digitVal (c : Char) : ℕ := if c.isDigit then c.toNat - 48 else c.toNat - 87

/-- The numbers read so far, the last one first: a separator starts the next number and a digit
goes on with the last one. -/
def readChar (b : ℕ) (sep : Char) (ns : List ℕ) (c : Char) : List ℕ :=
  if c = sep then 0 :: ns
  else match ns with
    | [] => []
    | n :: ns => (b*n + digitVal c) :: ns

def decode (b : ℕ) (sep : Char) (cs : List Char) : List ℕ := (cs.foldl (readChar b sep) []).reverse

variable {b : ℕ} {sep : Char}

/-- Of a base up to 16, no digit is the separator. -/
def Separates (b : ℕ) (sep : Char) : Prop := ∀ d < b, d.digitChar ≠ sep

lemma digitVal_digitChar : ∀ d < 16, digitVal d.digitChar = d := by decide

lemma mem_toDigits (hb : 1 < b) {n : ℕ} {c : Char} (hc : c ∈ Nat.toDigits b n) :
    ∃ d < b, c = d.digitChar := by
  induction n using Nat.strongRecOn with
  | ind n ih =>
    rw [Nat.toDigits_eq_if hb] at hc
    split at hc
    · rename_i hlt
      exact ⟨n,hlt,List.mem_singleton.mp hc⟩
    · rename_i hge
      have hdiv : n / b < n := Nat.div_lt_self (by omega) hb
      have hmod : n % b < b := Nat.mod_lt n (by omega)
      rcases List.mem_append.mp hc with hc | hc
      · exact ih (n/b) hdiv hc
      · exact ⟨n % b,hmod,List.mem_singleton.mp hc⟩

lemma readChar_digit (hb : b ≤ 16) (hsep : Separates b sep) {d : ℕ} (hd : d < b) (n : ℕ)
    (ns : List ℕ) : readChar b sep (n :: ns) d.digitChar = (b*n + d) :: ns := by
  rw [readChar,if_neg (hsep d hd)]
  rw [digitVal_digitChar d (by omega)]

lemma foldl_toDigits (hb : 1 < b) (hb' : b ≤ 16) (hsep : Separates b sep) (n : ℕ) (ns : List ℕ) :
    (Nat.toDigits b n).foldl (readChar b sep) (0 :: ns) = n :: ns := by
  induction n using Nat.strongRecOn with
  | ind n ih =>
    rw [Nat.toDigits_eq_if hb]
    split
    · rename_i hlt
      rw [List.foldl_cons,readChar_digit hb' hsep hlt,Nat.mul_zero,Nat.zero_add,List.foldl_nil]
    · rename_i hge
      have hdiv : n / b < n := Nat.div_lt_self (by omega) hb
      have hmod : n % b < b := Nat.mod_lt n (by omega)
      rw [List.foldl_append,ih (n/b) hdiv,List.foldl_cons,readChar_digit hb' hsep hmod,
        List.foldl_nil,Nat.div_add_mod]

/-- The numbers of a text come out the last one first, in front of those read before. -/
lemma foldl_encode (hb : 1 < b) (hb' : b ≤ 16) (hsep : Separates b sep) (ns rest : List ℕ) :
    (encode b sep ns).foldl (readChar b sep) rest = ns.reverse ++ rest := by
  induction ns generalizing rest with
  | nil => rfl
  | cons n ns ih =>
    have hstart : readChar b sep rest sep = 0 :: rest := if_pos rfl
    have hcons : encode b sep (n :: ns) = (sep :: Nat.toDigits b n) ++ encode b sep ns := rfl
    rw [hcons,List.foldl_append,List.foldl_cons,hstart,foldl_toDigits hb hb' hsep,ih,
      List.reverse_cons,List.append_assoc,List.singleton_append]

/-- Reading the text of a list of numbers gives the list back. -/
theorem decode_encode (hb : 1 < b) (hb' : b ≤ 16) (hsep : Separates b sep) (ns : List ℕ) :
    decode b sep (encode b sep ns) = ns := by
  rw [decode,foldl_encode hb hb' hsep,List.append_nil,List.reverse_reverse]

/-- A text of numbers holds digits and separators only. -/
theorem mem_encode (hb : 1 < b) {ns : List ℕ} {c : Char} (hc : c ∈ encode b sep ns) :
    c = sep ∨ ∃ d < b, c = d.digitChar := by
  obtain ⟨n,-,hc⟩ := List.mem_flatMap.mp hc
  exact (List.mem_cons.mp hc).imp id (mem_toDigits hb)

end Digits
