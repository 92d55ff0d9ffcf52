import Mathlib.Data.Nat.Notation

/-! Files that are read record by record: an iterator starts at a position and steps until it has
no element left, each element is shown, and the traversal is closed by a stop. -/
namespace SeqFile

/-- The operations of a file over positions `P` and elements `V`, which put out items `O`. -/
structure Ops (P V O : Type*) where
  start : P → Option V
  next : V → P → P × Option V
  record : V → List O
  stop : List O

variable {P V O : Type*} (S : Ops P V O)

/-- From an element on; no result when more than `fuel` elements are shown. -/
def records : ℕ → Option V → P → Option (List O)
  | _,none,_ => some S.stop
  | 0,some _,_ => none
  | fuel+1,some v,pos =>
    let r := S.next v pos
    (records fuel r.2 r.1).map (S.record v ++ ·)

/-- A traversal from a position to the stop. -/
def traversal (fuel : ℕ) (pos : P) : Option (List O) := records S fuel (S.start pos) pos

variable {S}

theorem records_unique {fuel fuel' : ℕ} {v : Option V} {pos : P} {out out' : List O}
    (h : records S fuel v pos = some out) (h' : records S fuel' v pos = some out') :
    out = out' := by
  induction fuel generalizing fuel' v pos out out' with
  | zero =>
    cases v with
    | none => exact Option.some.inj (h.symm.trans (by cases fuel' <;> exact h'))
    | some v => cases h
  | succ fuel ih =>
    cases v with
    | none => exact Option.some.inj (h.symm.trans (by cases fuel' <;> exact h'))
    | some v =>
      cases fuel' with
      | zero => cases h'
      | succ fuel' =>
        obtain ⟨rest,hrest,rfl⟩ := Option.map_eq_some_iff.mp h
        obtain ⟨rest',hrest',rfl⟩ := Option.map_eq_some_iff.mp h'
        rw [ih hrest hrest']

theorem traversal_unique {fuel fuel' : ℕ} {pos : P} {out out' : List O}
    (h : traversal S fuel pos = some out) (h' : traversal S fuel' pos = some out') : out = out' :=
  records_unique h h'

end SeqFile
