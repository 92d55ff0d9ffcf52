import PmuMin.Tools.Reader
import Mathlib.Data.Int.GCD
import Mathlib.Data.Nat.Prime.Basic

/-! When the benchmark readers end. -/
namespace PmuMin.Tools
open Breader Loop Stdio

/-- The devices at hand: finitely many items, and then no more than the end of the file or errors. -/
def DeliversFinitely {β : Type*} (dev : Device β) : Prop :=
  ∀ pass, ∃ n, ∀ a, n ≤ a → ∀ b, dev pass a ≠ .item b

/-- When a call of a reader ends, by the mode that `main` selects it with. -/
def EndsWhen (sys : System) (mode times stride : BitVec 32) : Prop :=
  let fileEnds (path : String) : Prop :=
    sys.malloc (stride.signExtend 64) = false ∨
      ∀ pass < times.toNat, stride ≠ 0 ∧ ∃ a, sys.file path pass a = .eof
  match mode.toNat with
  | 0 => fileEnds "/proc/breader_seq"
  | 1 => fileEnds "/proc/breader_raw"
  | _ => sys.fd "/proc/breader_mmap" < 0 ∨ sys.mmap (mmapSize sys) = none ∨
      stride ≠ 0 ∧ stride ≠ BitVec.intMin 32

section File
variable {sys : System} {path : String} {times stride : BitVec 32}

lemma exists_ends_fileReader_iff :
    (∃ e, Ends (fileReader sys path stride times) e) ↔
      (sys.malloc (stride.signExtend 64) = false ∨
        ∀ pass < times.toNat, stride ≠ 0 ∧ ∃ a, sys.file path pass a = .eof) := by
  rw [← exists_ends_filePasses_iff 0]
  cases hmalloc : sys.malloc (stride.signExtend 64) with
  | false =>
    have hreader : fileReader sys path stride times = fun _ => some (.exit (-1) none) := by
      funext fuel
      rw [fileReader,hmalloc]
      rfl
    rw [hreader]
    exact iff_of_true (exists_ends_some _) (Or.inl rfl)
  | true =>
    rw [fileReader_eq hmalloc]
    simp only [Bool.true_eq_false,false_or]
    exact exists_ends_map

end File

section Mmap
variable {size stride : BitVec 32} {rawBuff : ℕ → Option Byte}

/-- The multiples of a word other than 0 and the least one meet the middle of the positive words. -/
lemma exists_mul_mod_eq {a : ℕ} (ha : a < 2^32) (hzero : a ≠ 0) (hmin : a ≠ 2^31) :
    ∃ k, k*a % 2^32 = 2^30 := by
  obtain ⟨e,-,he⟩ := (Nat.dvd_prime_pow Nat.prime_two).mp (Nat.gcd_dvd_right a (2^32))
  have hsmall : e ≤ 30 := by
    by_contra hlt
    have hdvd : 2^31 ∣ a := by
      have hgcd : 2^e ∣ a := he ▸ Nat.gcd_dvd_left a (2^32)
      exact (Nat.pow_dvd_pow 2 (by omega)).trans hgcd
    obtain ⟨q,rfl⟩ := hdvd
    omega
  obtain ⟨m,-,hm⟩ := Nat.exists_mul_mod_eq_gcd (k := 2^32) (n := a) (by
    rw [he]
    exact Nat.pow_lt_pow_right (by decide) (by omega))
  refine ⟨2^(30-e)*m,?_⟩
  have hpow : 2^(30-e)*2^e = 2^30 := by rw [← pow_add,Nat.sub_add_cancel hsmall]
  rw [mul_assoc,mul_comm m a,Nat.mul_mod,hm,he,Nat.mod_mul_mod,hpow]
  rfl

/-- With a stride of 0, or the least one, the loop stays at offsets that are not positive. -/
lemma toInt_mul_nonpos (hstride : stride = 0 ∨ stride = BitVec.intMin 32) (k : ℕ) :
    (BitVec.ofNat 32 (k*stride.toNat)).toInt ≤ 0 := by
  cases hstride with
  | inl hzero =>
    subst hzero
    simp
  | inr hmin =>
    have hnat : stride.toNat = 2^31 := by rw [hmin]; rfl
    have hcond := BitVec.toInt_eq_toNat_cond (BitVec.ofNat 32 (k*stride.toNat))
    rw [BitVec.toNat_ofNat] at hcond
    rw [hnat] at hcond ⊢
    split at hcond <;> omega

lemma iterate_strideStep_sum (hstride : stride.toInt ≤ 0) (sum : Option Sum) (k : ℕ) :
    ((strideStep stride rawBuff)^[k] ⟨0,0,sum⟩).sum = sum := by
  induction k with
  | zero => rfl
  | succ k ih =>
    rw [Function.iterate_succ_apply',strideStep,ih,Int.toNat_of_nonpos hstride]
    rfl

lemma inside_iterate (hpos : 0 < size.toInt) (hstride : stride = 0 ∨ stride = BitVec.intMin 32)
    (sum : Sum) (k : ℕ) :
    inside size ((strideStep stride rawBuff)^[k] ⟨0,0,some sum⟩) = true := by
  have hnonpos : stride.toInt ≤ 0 := by
    cases hstride with
    | inl hzero => rw [hzero]; decide
    | inr hmin => rw [hmin]; decide
  rw [inside,iterate_strideStep_sum hnonpos,iterate_strideStep_i]
  exact BitVec.slt_iff_toInt_lt.mpr ((toInt_mul_nonpos hstride k).trans_lt hpos)

/-- With any other stride it does, after wrapping around if need be. -/
lemma exists_outside (hle : size.toInt ≤ 2^30) (hzero : stride ≠ 0)
    (hmin : stride ≠ BitVec.intMin 32) (sum : Option Sum) :
    ∃ k, inside size ((strideStep stride rawBuff)^[k] ⟨0,0,sum⟩) = false := by
  obtain ⟨k,hk⟩ := exists_mul_mod_eq stride.isLt
    (fun h => hzero (BitVec.eq_of_toNat_eq h)) (fun h => hmin (BitVec.eq_of_toNat_eq h))
  have hi : BitVec.ofNat 32 (k*stride.toNat) = 0x40000000 := by
    apply BitVec.eq_of_toNat_eq
    rw [BitVec.toNat_ofNat,hk]
    rfl
  have hout : (0x40000000 : BitVec 32).slt size = false := by
    apply eq_false_of_ne_true
    rw [BitVec.slt_iff_toInt_lt]
    exact not_lt.mpr hle
  exact ⟨k,by rw [inside,iterate_strideStep_i,hi,hout,Bool.and_false]⟩

lemma exists_ends_mmapPass_iff (hpos : 0 < size.toInt) (hle : size.toInt ≤ 2^30) (sum : Sum) :
    (∃ r, Ends (mmapPass size stride rawBuff (some sum)) r) ↔
      stride ≠ 0 ∧ stride ≠ BitVec.intMin 32 := by
  have hloop : (∃ r, Ends (mmapPass size stride rawBuff (some sum)) r) ↔
      ∃ k, inside size ((strideStep stride rawBuff)^[k] ⟨0,0,some sum⟩) = false := by
    simp only [ends_mmapPass_iff]
    rw [exists_comm,← exists_ends_whileLoop_iff]
    simp only [exists_and_left,exists_eq',and_true]
  rw [hloop]
  constructor
  · rintro ⟨k,hk⟩
    by_contra h
    exact absurd (hk.symm.trans (inside_iterate hpos (or_iff_not_and_not.mpr h) sum k)) (by decide)
  · rintro ⟨hzero,hmin⟩
    exact exists_outside hle hzero hmin (some sum)

lemma exists_ends_mmapPasses_iff (hpos : 0 < size.toInt) (hle : size.toInt ≤ 2^30) {times : ℕ}
    (htimes : times ≠ 0) :
    (∃ r, Ends (repeatLoop (mmapPass size stride rawBuff) times (some 0)) r) ↔
      stride ≠ 0 ∧ stride ≠ BitVec.intMin 32 := by
  constructor
  · obtain ⟨rest,rfl⟩ := Nat.exists_eq_succ_of_ne_zero htimes
    rintro ⟨r,hr⟩
    obtain ⟨u,hu,-⟩ := (ends_repeatLoop_succ steady_mmapPass).mp hr
    exact (exists_ends_mmapPass_iff hpos hle 0).mp ⟨u,hu⟩
  · intro hstride
    have hends : ∀ (_ : ℕ) sum, True →
        ((∃ r, Ends (mmapPass size stride rawBuff sum) r) ↔ True) := by
      rintro - (_|sum) -
      · exact iff_of_true ⟨none,ends_mmapPass_none.mpr rfl⟩ trivial
      · exact iff_of_true ((exists_ends_mmapPass_iff hpos hle sum).mpr hstride) trivial
    exact (exists_ends_repeatLoop_iff steady_mmapPass (I := fun _ _ => True) (k := 0)
      (fun _ _ _ _ _ => trivial) hends trivial).mpr fun _ _ => trivial

end Mmap

section Main
variable {sys : System} {mode times stride : BitVec 32}

lemma exists_ends_mmapReader_iff (hpos : 0 < sys.pageSize) (hle : sys.pageSize ≤ 2^20)
    (htimes : times ≠ 0) :
    (∃ e, Ends (mmapReader sys stride times) e) ↔
      (sys.fd "/proc/breader_mmap" < 0 ∨ sys.mmap (mmapSize sys) = none ∨
        stride ≠ 0 ∧ stride ≠ BitVec.intMin 32) := by
  have hsize := mmapSize_toInt hpos hle
  have hnat : times.toNat ≠ 0 := fun h => htimes (BitVec.eq_of_toNat_eq h)
  by_cases hfd : sys.fd "/proc/breader_mmap" < 0
  · have hreader : mmapReader sys stride times = fun _ => some (.exit (-1) none) := by
      funext fuel
      rw [mmapReader,if_pos hfd]
    rw [hreader]
    exact iff_of_true (exists_ends_some _) (Or.inl hfd)
  · cases hmap : sys.mmap (mmapSize sys) with
    | none =>
      have hreader : mmapReader sys stride times = fun _ => some (.exit (-1) none) := by
        funext fuel
        rw [mmapReader,if_neg hfd,hmap]
      rw [hreader]
      exact iff_of_true (exists_ends_some _) (Or.inr (Or.inl rfl))
    | some rawBuff =>
      have hpasses : (∃ r, Ends (repeatLoop (mmapPass (mmapSize sys) stride rawBuff) times.toNat
          (some 0)) r) ↔ stride ≠ 0 ∧ stride ≠ BitVec.intMin 32 :=
        exists_ends_mmapPasses_iff (by omega) (by omega) hnat
      simp only [hfd,false_or,reduceCtorEq]
      rw [← hpasses,mmapReader_eq hfd hmap]
      exact exists_ends_map

lemma exists_ends_select_iff (hpos : 0 < sys.pageSize) (hle : sys.pageSize ≤ 2^20)
    (h : Accepted mode times stride) :
    (∃ e, Ends (select sys mode times stride) e) ↔ EndsWhen sys mode times stride := by
  have htimes : times ≠ 0 := by
    rintro rfl
    exact absurd h.times (by decide)
  have hmode := h.mode
  unfold select EndsWhen
  generalize mode.toNat = m at hmode
  match m with
  | 0 => exact exists_ends_fileReader_iff
  | 1 => exact exists_ends_fileReader_iff
  | 2 => exact exists_ends_mmapReader_iff hpos hle htimes

/-- A stride of 0 never ends where the buffer or the mapping is there. -/
lemma not_endsWhen_zero (h : Accepted mode times 0) (hmalloc : sys.malloc 0 = true)
    (hfd : ¬ sys.fd "/proc/breader_mmap" < 0) (hmap : sys.mmap (mmapSize sys) ≠ none) :
    ¬ EndsWhen sys mode times 0 := by
  obtain ⟨-,htimes,-⟩ := toNat_of_pos h.times
  have hfile : ∀ path, ¬ (sys.malloc ((0 : BitVec 32).signExtend 64) = false ∨
      ∀ pass < times.toNat, (0 : BitVec 32) ≠ 0 ∧ ∃ a, sys.file path pass a = .eof) := by
    rintro path (hnull | hread)
    · exact absurd (hmalloc.symm.trans hnull) (by decide)
    · exact (hread 0 htimes).1 rfl
  unfold EndsWhen
  dsimp only
  split
  · exact hfile _
  · exact hfile _
  · rintro (hopen | hnone | hstride)
    · exact hfd hopen
    · exact hmap hnone
    · exact hstride.1 rfl

/-- The readers that `main` calls end exactly if their stride moves them on and, of a file, every pass
comes to an end of file; a rejected argument vector ends at once. -/
theorem readers_end_iff (sys : System) (a : Args) (hpos : 0 < sys.pageSize)
    (hle : sys.pageSize ≤ 2^20) :
    (∃ e, Ends (main sys a) e) ↔ ∀ mode times stride,
      checkArgs a = .ok (mode,times,stride) → EndsWhen sys mode times stride := by
  unfold main
  cases hargs : checkArgs a with
  | error e => exact iff_of_true (exists_ends_some e) fun _ _ _ h => by cases h
  | ok call =>
    obtain ⟨mode,times,stride⟩ := call
    rw [show (∃ e, Ends (fun fuel => select sys mode times stride fuel) e) ↔ _ from
      exists_ends_select_iff hpos hle (accepted_of_checkArgs hargs)]
    constructor
    · intro h mode' times' stride' heq
      cases heq
      exact h
    · intro h
      exact h mode times stride rfl

end Main

/-- A system with pages of 4 KiB, where a device stands for both files and the mapping shows zeros. -/
def machine (dev : Device Byte) : System :=
  ⟨fun size => !size.msb,fun _ => dev,fun _ => 3,4096,
    fun size => some fun i => if i < size.toNat then some 0 else none,0⟩

/-- Three numbers as arguments. -/
def arguments (mode times stride : BitVec 64) : Args :=
  ⟨4,"reader",1,⟨mode,false,2,0⟩,⟨times,false,3,0⟩,⟨stride,false,4,0⟩⟩

/-- A file of three bytes, read twice with a stride of 8. -/
theorem readers_end_twice : ∃ e, Ends (main (machine fun _ => file [1,2,3]) (arguments 1 2 8)) e := by
  apply (readers_end_iff (machine fun _ => file [1,2,3]) (arguments 1 2 8) (by decide)
    (by decide)).mpr
  intro mode times stride h
  cases h
  exact Or.inr fun pass _ => ⟨by decide,3,rfl⟩

/-- A device that gives one byte and then nothing but errors. -/
def failing : Device Byte := fun _ a => if a = 0 then .item 1 else .error

lemma failing_ne_eof (pass a : ℕ) : failing pass a ≠ .eof := by
  unfold failing
  split <;> simp

/-- `main` lets a stride of 0 through, and no mode ends with it; nor does a read of the device that
fails, with a stride of 8. -/
theorem stride_zero_runs_forever :
    (DeliversFinitely fun _ => file ([1] : List Byte)) ∧ DeliversFinitely failing ∧
      (∀ mode ∈ [0,1,2], ¬ ∃ e, Ends (main (machine fun _ => file [1]) (arguments mode 1 0)) e) ∧
      ∀ mode ∈ [0,1], ¬ ∃ e, Ends (main (machine failing) (arguments mode 1 8)) e := by
  refine ⟨fun pass => ⟨1,fun a ha b => ?_⟩,fun pass => ⟨1,fun a ha b => ?_⟩,fun mode hmode => ?_,
    fun mode hmode => ?_⟩
  · have hend : file ([1] : List Byte) a = .eof := file_eq_eof_iff.mpr ha
    change file [1] a ≠ _
    rw [hend]
    simp
  · rw [failing,if_neg (Nat.ne_of_gt ha)]
    simp
  · have hnever : ∀ m : BitVec 32, Accepted m 1 0 →
        ¬ ∃ e, Ends (select (machine fun _ => file [1]) m 1 0) e := by
      intro m hm
      rw [exists_ends_select_iff (by decide) (by decide) hm]
      exact not_endsWhen_zero hm rfl (by decide) (Option.some_ne_none _)
    simp only [List.mem_cons,List.not_mem_nil,or_false] at hmode
    rcases hmode with rfl | rfl | rfl
    · exact hnever 0 ⟨by decide,by decide,by decide⟩
    · exact hnever 1 ⟨by decide,by decide,by decide⟩
    · exact hnever 2 ⟨by decide,by decide,by decide⟩
  · have hnever : ∀ path, ¬ ∃ e, Ends (fileReader (machine failing) path 8 1) e := by
      intro path
      rw [exists_ends_fileReader_iff]
      rintro (hmalloc | hread)
      · exact absurd hmalloc (by decide)
      · obtain ⟨-,a,ha⟩ := hread 0 (by decide)
        exact failing_ne_eof 0 a ha
    simp only [List.mem_cons,List.not_mem_nil,or_false] at hmode
    rcases hmode with rfl | rfl
    · exact hnever "/proc/breader_seq"
    · exact hnever "/proc/breader_raw"

end PmuMin.Tools
