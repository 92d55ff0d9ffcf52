import Mathlib.Data.List.Nodup
import Mathlib.Logic.Function.Basic

/-! The kernel's `hlist`, link by link: each node points to the next one and back to the link that
points to it, which is a list head or the `next` of another node. -/
namespace Hlist
variable {β α : Type*}

/-- The links: `target` is the `first` of a head and the `next` of a node, `pprev` the back link
of a node. -/
structure Links (β α : Type*) where
  target : β ⊕ α → Option α
  pprev : α → Option (β ⊕ α)

def empty : Links β α := ⟨fun _ => none,fun _ => none⟩

section Operations
variable [DecidableEq β] [DecidableEq α]

/-- `hlist_add_head`. -/
def addHead (h : Links β α) (n : α) (b : β) : Links β α :=
  let first := h.target (.inl b)
  let pprev := match first with
    | some f => Function.update h.pprev f (some (.inr n))
    | none => h.pprev
  { target := Function.update (Function.update h.target (.inr n) first) (.inl b) (some n)
    pprev := Function.update pprev n (some (.inl b)) }

/-- `hlist_del_init`, which leaves a node that is on no list alone. -/
def delInit (h : Links β α) (n : α) : Links β α :=
  match h.pprev n with
  | none => h
  | some link =>
    let next := h.target (.inr n)
    let pprev := match next with
      | some x => Function.update h.pprev x (some link)
      | none => h.pprev
    { target := Function.update (Function.update h.target link next) (.inr n) none
      pprev := Function.update pprev n none }

end Operations

/-- The nodes met from a link on, each of them with its back link. -/
def Path (h : Links β α) : β ⊕ α → List α → Prop
  | link,[] => h.target link = none
  | link,n :: ns => h.target link = some n ∧ h.pprev n = some link ∧ Path h (.inr n) ns

theorem Path.target_eq {h : Links β α} {link : β ⊕ α} {ns : List α} (hp : Path h link ns) :
    h.target link = ns.head? := by
  cases ns with
  | nil => exact hp
  | cons n ns => exact hp.1

/-- What a walk finds behind a node. -/
theorem Path.next {h : Links β α} {link : β ⊕ α} {pre post : List α} {n : α}
    (hp : Path h link (pre ++ n :: post)) : h.target (.inr n) = post.head? := by
  induction pre generalizing link with
  | nil => exact hp.2.2.target_eq
  | cons m ms ih => exact ih hp.2.2

/-- A path depends on the links of its own nodes alone. -/
theorem Path.congr {h h' : Links β α} {link : β ⊕ α} {ns : List α} (hp : Path h link ns)
    (hlink : h'.target link = h.target link)
    (hns : ∀ n ∈ ns, h'.target (.inr n) = h.target (.inr n) ∧ h'.pprev n = h.pprev n) :
    Path h' link ns := by
  induction ns generalizing link with
  | nil => exact hlink.trans hp
  | cons n ns ih =>
    have hn := hns n (List.mem_cons_self ..)
    refine ⟨hlink.trans hp.1,hn.2.trans hp.2.1,ih hp.2.2 hn.1 ?_⟩
    intro m hm
    exact hns m (List.mem_cons_of_mem _ hm)

/-- The lists that a memory of links holds, without a node on two of them or twice on one. -/
structure Represents (h : Links β α) (chains : β → List α) : Prop where
  path : ∀ b, Path h (.inl b) (chains b)
  nodup : ∀ b, (chains b).Nodup
  disjoint : ∀ b b' n, n ∈ chains b → n ∈ chains b' → b = b'

theorem represents_empty : Represents (empty : Links β α) fun _ => [] where
  path _ := rfl
  nodup _ := List.nodup_nil
  disjoint _ _ _ h := by simp at h

/-- The link behind the last of some nodes. -/
def lastLink : β ⊕ α → List α → β ⊕ α
  | link,[] => link
  | _,n :: ns => lastLink (.inr n) ns

lemma lastLink_cases (link : β ⊕ α) (ns : List α) :
    lastLink link ns = link ∨ ∃ n ∈ ns, lastLink link ns = .inr n := by
  induction ns generalizing link with
  | nil => exact .inl rfl
  | cons n ns ih =>
    right
    rcases ih (.inr n) with h | ⟨m,hm,h⟩
    · exact ⟨n,List.mem_cons_self ..,h⟩
    · exact ⟨m,List.mem_cons_of_mem _ hm,h⟩

/-- Where the back link of a node on a path leads. -/
lemma Path.pprev_eq {h : Links β α} {link : β ⊕ α} {pre post : List α} {n : α}
    (hp : Path h link (pre ++ n :: post)) : h.pprev n = some (lastLink link pre) := by
  induction pre generalizing link with
  | nil => exact hp.2.1
  | cons m ms ih => exact ih hp.2.2

section Operations
variable [DecidableEq β] [DecidableEq α]

lemma addHead_target_of_ne (h : Links β α) {n : α} {b : β} {link : β ⊕ α} (hb : link ≠ .inl b)
    (hn : link ≠ .inr n) : (addHead h n b).target link = h.target link := by
  simp only [addHead]
  rw [Function.update_of_ne hb,Function.update_of_ne hn]

lemma addHead_pprev_of_ne (h : Links β α) {n : α} {b : β} {m : α} (hn : m ≠ n)
    (hf : h.target (.inl b) ≠ some m) : (addHead h n b).pprev m = h.pprev m := by
  simp only [addHead]
  rw [Function.update_of_ne hn]
  cases hfirst : h.target (.inl b) with
  | none => rfl
  | some f =>
    have hm : m ≠ f := fun he => hf (by rw [hfirst,he])
    exact Function.update_of_ne hm ..

lemma path_addHead {h : Links β α} {b : β} {ns : List α} (hp : Path h (.inl b) ns)
    (hnodup : ns.Nodup) {n : α} (hn : n ∉ ns) : Path (addHead h n b) (.inl b) (n :: ns) := by
  refine ⟨by simp [addHead],by simp [addHead],?_⟩
  cases ns with
  | nil => simpa [addHead,Path] using hp
  | cons f fs =>
    obtain ⟨hfirst,-,htail⟩ := hp
    rw [List.mem_cons,not_or] at hn
    refine ⟨by simp [addHead,hfirst],?_,htail.congr ?_ ?_⟩
    · simp [addHead,hfirst,Ne.symm hn.1]
    · exact addHead_target_of_ne h (by simp) (by simpa using Ne.symm hn.1)
    · intro m hm
      have hmn : m ≠ n := fun he => hn.2 (he ▸ hm)
      have hmf : m ≠ f := fun he => (List.nodup_cons.mp hnodup).1 (he ▸ hm)
      refine ⟨addHead_target_of_ne h (by simp) (by simpa using hmn),?_⟩
      exact addHead_pprev_of_ne h hmn (by rw [hfirst]; simpa using Ne.symm hmf)

/-- Insertion at a head, of a node that is on no list. -/
theorem Represents.addHead {h : Links β α} {chains : β → List α} (hr : Represents h chains)
    {n : α} (hn : ∀ b, n ∉ chains b) (b : β) :
    Represents (addHead h n b) (Function.update chains b (n :: chains b)) where
  path c := by
    by_cases hc : c = b
    · subst hc
      rw [Function.update_self]
      exact path_addHead (hr.path c) (hr.nodup c) (hn c)
    · rw [Function.update_of_ne hc]
      refine (hr.path c).congr (addHead_target_of_ne h (by simpa using hc) (by simp)) ?_
      intro m hm
      have hmn : m ≠ n := fun he => hn c (he ▸ hm)
      refine ⟨addHead_target_of_ne h (by simp) (by simpa using hmn),?_⟩
      apply addHead_pprev_of_ne h hmn
      intro hfirst
      rw [(hr.path b).target_eq] at hfirst
      exact hc (hr.disjoint c b m hm (List.mem_of_mem_head? hfirst))
  nodup c := by
    by_cases hc : c = b
    · subst hc
      rw [Function.update_self]
      exact List.nodup_cons.mpr ⟨hn c,hr.nodup c⟩
    · rw [Function.update_of_ne hc]
      exact hr.nodup c
  disjoint c c' m hm hm' := by
    have hmem : ∀ d, m ∈ Function.update chains b (n :: chains b) d →
        m ∈ chains d ∨ m = n ∧ d = b := by
      intro d hd
      by_cases hdb : d = b
      · subst hdb
        rw [Function.update_self,List.mem_cons] at hd
        exact hd.elim (fun he => .inr ⟨he,rfl⟩) .inl
      · rw [Function.update_of_ne hdb] at hd
        exact .inl hd
    rcases hmem c hm with h1 | ⟨rfl,rfl⟩ <;> rcases hmem c' hm' with h2 | ⟨h2,h3⟩
    · exact hr.disjoint c c' m h1 h2
    · exact absurd (h2 ▸ h1) (hn c)
    · exact absurd h2 (hn c')
    · exact h3.symm

/-- The writes of `hlist_del_init` to a node with a back link. -/
lemma delInit_eq {h : Links β α} {n : α} {link : β ⊕ α} (hl : h.pprev n = some link) :
    (∀ l, l ≠ .inr n → l ≠ link → (delInit h n).target l = h.target l) ∧
      (link ≠ .inr n → (delInit h n).target link = h.target (.inr n)) ∧
      (∀ m, m ≠ n → h.target (.inr n) ≠ some m → (delInit h n).pprev m = h.pprev m) ∧
      ∀ m, m ≠ n → h.target (.inr n) = some m → (delInit h n).pprev m = some link := by
  simp only [delInit,hl]
  refine ⟨fun l hn hlink => ?_,fun hn => ?_,fun m hm hnext => ?_,fun m hm hnext => ?_⟩
  · rw [Function.update_of_ne hn,Function.update_of_ne hlink]
  · rw [Function.update_of_ne hn,Function.update_self]
  · rw [Function.update_of_ne hm]
    cases hx : h.target (.inr n) with
    | none => rfl
    | some x =>
      have hmx : m ≠ x := fun he => hnext (by rw [hx,he])
      exact Function.update_of_ne hmx ..
  · rw [Function.update_of_ne hm,hnext]
    exact Function.update_self ..

lemma path_delInit {h : Links β α} {link : β ⊕ α} {pre post : List α} {n : α}
    (hp : Path h link (pre ++ n :: post)) (hnodup : (pre ++ n :: post).Nodup)
    (hlink : ∀ m ∈ pre ++ n :: post, link ≠ .inr m) :
    Path (delInit h n) link (pre ++ post) := by
  obtain ⟨htarget,hskip,hpprev,hback⟩ := delInit_eq hp.pprev_eq
  induction pre generalizing link with
  | nil =>
    -- the back link of the node is the link the path begins at
    simp only [List.nil_append] at hp hnodup hlink ⊢
    simp only [lastLink] at htarget hskip hback
    obtain ⟨hnpost,hpost⟩ := List.nodup_cons.mp hnodup
    have hnext := hp.2.2.target_eq
    have hfirst : (delInit h n).target link = h.target (.inr n) := hskip (hlink n (by simp))
    cases post with
    | nil => exact hfirst.trans hnext
    | cons x xs =>
      have hxn : x ≠ n := fun he => hnpost (by simp [he])
      refine ⟨hfirst.trans hnext,hback x hxn hnext,hp.2.2.2.2.congr ?_ ?_⟩
      · exact htarget _ (by simpa using hxn) (Ne.symm (hlink x (by simp)))
      · intro m hm
        have hmn : m ≠ n := fun he => hnpost (by simp [← he,hm])
        have hxm : x ≠ m := fun he => (List.nodup_cons.mp hpost).1 (he ▸ hm)
        refine ⟨htarget _ (by simpa using hmn) (Ne.symm (hlink m (by simp [hm]))),hpprev m hmn ?_⟩
        rw [hnext]
        simpa using hxm
  | cons m ms ih =>
    obtain ⟨hm,hback',htail⟩ := hp
    obtain ⟨hmnot,hrest⟩ := List.nodup_cons.mp hnodup
    have hmn : m ≠ n := fun he => hmnot (by simp [he])
    have hnextm : h.target (.inr n) ≠ some m := by
      rw [htail.next]
      intro he
      exact hmnot (by simp [List.mem_of_mem_head? he])
    refine ⟨?_,(hpprev m hmn hnextm).trans hback',ih htail hrest ?_ htarget hskip hback⟩
    · rw [htarget link (hlink n (by simp)) ?_,hm]
      rcases lastLink_cases (.inr m : β ⊕ α) ms with he | ⟨k,hk,he⟩
      · exact fun h' => hlink m (by simp) (h'.trans he)
      · exact fun h' => hlink k (by simp [hk]) (h'.trans he)
    · intro k hk he
      exact hmnot (by rwa [Sum.inr.inj he])

/-- Removal of a node from the list it is on, whatever lies before and behind it. -/
theorem Represents.delInit {h : Links β α} {chains : β → List α} (hr : Represents h chains)
    {b : β} {pre post : List α} {n : α} (hb : chains b = pre ++ n :: post) :
    Represents (delInit h n) (Function.update chains b (pre ++ post)) where
  path c := by
    have hpb : Path h (.inl b) (pre ++ n :: post) := hb ▸ hr.path b
    have hnb : n ∈ chains b := by simp [hb]
    by_cases hc : c = b
    · subst hc
      rw [Function.update_self]
      exact path_delInit hpb (hb ▸ hr.nodup c) (by simp)
    · rw [Function.update_of_ne hc]
      have hout : ∀ m ∈ chains c, m ∉ pre ++ n :: post := by
        intro m hm hmb
        exact hc (hr.disjoint c b m hm (hb ▸ hmb))
      have hlast := lastLink_cases (.inl b : β ⊕ α) pre
      obtain ⟨htarget,-,hpprev,-⟩ := delInit_eq hpb.pprev_eq
      refine (hr.path c).congr (htarget _ (by simp) ?_) ?_
      · rcases hlast with he | ⟨k,-,he⟩ <;> rw [he]
        · simpa using hc
        · simp
      · intro m hm
        have hmn : m ≠ n := fun he => hout m hm (by simp [he])
        have hml : (.inr m : β ⊕ α) ≠ lastLink (.inl b) pre := by
          rcases hlast with he | ⟨k,hk,he⟩ <;> rw [he]
          · simp
          · exact fun h' => hout m hm (by simp [Sum.inr.inj h',hk])
        refine ⟨htarget _ (by simpa using hmn) hml,hpprev m hmn ?_⟩
        rw [hpb.next]
        intro he
        exact hout m hm (by simp [List.mem_of_mem_head? he])
  nodup c := by
    by_cases hc : c = b
    · subst hc
      have hnodup := hr.nodup c
      rw [hb] at hnodup
      rw [Function.update_self]
      exact hnodup.sublist (List.Sublist.append_left (List.sublist_cons_self n post) pre)
    · rw [Function.update_of_ne hc]
      exact hr.nodup c
  disjoint c c' m hm hm' := by
    have hmem : ∀ d, m ∈ Function.update chains b (pre ++ post) d → m ∈ chains d := by
      intro d hd
      by_cases hdb : d = b
      · subst hdb
        rw [Function.update_self,List.mem_append] at hd
        rw [hb]
        simp only [List.mem_append,List.mem_cons]
        exact hd.imp_right .inr
      · rwa [Function.update_of_ne hdb] at hd
    exact hr.disjoint c c' m (hmem c hm) (hmem c' hm')

end Operations
end Hlist
