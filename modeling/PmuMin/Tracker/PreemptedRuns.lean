import PmuMin.Tracker.Preempted

/-! What every step of a task, a PMI, the scheduler and a grace period keeps of the tracker's
invariant, and from it what holds over whole runs. -/
namespace PmuMin.Perf.Preempted
open Machine

variable {Cpu Task Event : Type}

/-- What a step of the task `t` on the CPU leaves to the others: their lists go on, and their
flags, their mutexes and the events in their hands stay. -/
structure Frame (c : Config Cpu Task Event) (cpu : Cpu) (t : Task) (m' : Memory Cpu Task Event) :
    Prop where
  lists : ∀ t', t' ≠ t → ∃ added, Extends c.memory m' t' added
  flags : ∀ cpu', cpu' ≠ cpu → m'.pcpuRemovingEvent cpu' = c.memory.pcpuRemovingEvent cpu'
  mutexes : ∀ t', t' ≠ t → ∀ task,
    m'.perfEventMutex task = some t' ↔ c.memory.perfEventMutex task = some t'
  owned : ∀ t', t' ≠ t → ∀ e, owned (c.pc t') = some e →
    m'.event e = c.memory.event e ∧ ∀ t'', e ∉ m'.perfEventList t''

/-- What the step has to bring about for the task itself. -/
structure Arrives (c : Config Cpu Task Event) (cpu : Cpu) (t : Task) (m' : Memory Cpu Task Event)
    (p' : Pc Task Event) : Prop where
  flag : m'.pcpuRemovingEvent cpu = preemptOff p'
  holder : ∀ task, holds t p' = some task ↔ m'.perfEventMutex task = some t
  alive : ∀ e ∈ m'.perfEventList t, condemned p' ≠ some e → ∃ d, m'.event e = some (.live d)
  owner : ∀ e, owned p' = some e → ∀ t', t' ≠ t → owned (c.pc t') ≠ some e
  cursor : Cursor c.current m' t p'
  order : m'.linked t = m'.handed t ++ pending m' t p'

structure SameLists (m m' : Memory Cpu Task Event) : Prop where
  list : m'.perfEventList = m.perfEventList
  linked : m'.linked = m.linked
  handed : m'.handed = m.handed

section Steps
variable {c : Config Cpu Task Event} {cpu : Cpu} {t : Task}
  {m' : Memory Cpu Task Event} {p p' : Pc Task Event}

lemma Extends.of_same (hlist : m'.perfEventList t = c.memory.perfEventList t)
    (hlinked : m'.linked t = c.memory.linked t) (hhanded : m'.handed t = c.memory.handed t)
    (hevent : ∀ e ∈ c.memory.perfEventList t, m'.event e = c.memory.event e) :
    Extends c.memory m' t [] where
  list := by rw [hlist,List.append_nil]
  linked := by rw [hlinked,List.map_nil,List.append_nil]
  handed := hhanded
  event := hevent
  live _ he := absurd he List.not_mem_nil

namespace Frame

lemma alive (hf : Frame c cpu t m') (h : Safe c) {t' : Task} (hne : t' ≠ t) {e : Event}
    (hmem : e ∈ m'.perfEventList t') (hcond : condemned (c.pc t') ≠ some e) :
    ∃ d, m'.event e = some (.live d) := by
  obtain ⟨added,hadd⟩ := hf.lists t' hne
  rw [hadd.list,List.mem_append] at hmem
  rcases hmem with hmem | hmem
  · obtain ⟨d,hd⟩ := h.alive t' e hmem hcond
    exact ⟨d,(hadd.event e hmem).trans hd⟩
  · exact hadd.live e hmem

lemma query (hf : Frame c cpu t m') (h : Safe c) (ht : c.current cpu = t)
    (pc' : Task → Pc Task Event) {cpu' : Cpu} (hne : cpu' ≠ cpu) :
    Query { c with memory := m', pc := pc' } cpu' (c.pmi cpu') := by
  have hother : c.current cpu' ≠ t := fun hc => hne (h.sole (hc.trans ht.symm))
  obtain ⟨added,hadd⟩ := hf.lists _ hother
  have hquery := h.query cpu'
  cases hp : c.pmi cpu' <;> rw [hp] at hquery
  case reading => exact (hf.flags cpu' hne).trans hquery
  case deref e => exact ⟨(hf.flags cpu' hne).trans hquery.1,(hadd.head? hquery.2).1⟩
  case done data =>
    refine hquery.imp_right ?_
    rintro ⟨rest,hrest⟩
    refine ⟨rest ++ added.map m'.datum,?_⟩
    simp only [hadd.linked,hadd.handed,hrest,List.append_assoc,List.cons_append]
  all_goals exact hquery

end Frame

/-- A step that leaves the lists, and changes no event that another task may notice. -/
lemma Safe.frame (h : Safe c) (hsame : SameLists c.memory m')
    (hevent : ∀ t', t' ≠ t → ∀ e, e ∈ c.memory.perfEventList t' ∨ owned (c.pc t') = some e →
      m'.event e = c.memory.event e)
    (hflags : ∀ cpu', cpu' ≠ cpu → m'.pcpuRemovingEvent cpu' = c.memory.pcpuRemovingEvent cpu')
    (hmutexes : ∀ t', t' ≠ t → ∀ task,
      m'.perfEventMutex task = some t' ↔ c.memory.perfEventMutex task = some t') :
    Frame c cpu t m' where
  lists t' ht' := by
    refine ⟨[],Extends.of_same ?_ ?_ ?_ fun e he => hevent t' ht' e (.inl he)⟩
    · rw [hsame.list]
    · rw [hsame.linked]
    · rw [hsame.handed]
  flags := hflags
  mutexes := hmutexes
  owned t' ht' e he := by
    refine ⟨hevent t' ht' e (.inr he),fun t'' hmem => ?_⟩
    rw [hsame.list] at hmem
    exact (h.unlinked he).2 t'' hmem

variable [DecidableEq Task]

/-- A step of the task that a CPU runs, as far as the others notice it. -/
theorem Safe.update (h : Safe c) (ht : c.current cpu = t) (hpmi : c.pmi cpu = .idle)
    (hf : Frame c cpu t m') (ha : Arrives c cpu t m' p')
    (hnodup : ∀ t', (m'.perfEventList t').Nodup)
    (hdisjoint : ∀ t' t'' e, e ∈ m'.perfEventList t' → e ∈ m'.perfEventList t'' → t' = t'')
    (hreached : ∀ e d, m'.event e = some (.live d) → (∃ t', e ∈ m'.perfEventList t') ∨
      owned p' = some e ∨ ∃ t', t' ≠ t ∧ owned (c.pc t') = some e) :
    Safe (c.put t m' p') where
  sole := h.sole
  running t' hoff := by
    by_cases he : t' = t
    · exact ⟨cpu,ht.trans he.symm⟩
    · simp only [Config.put,Function.update_of_ne he] at hoff
      exact h.running t' hoff
  flag cpu' := by
    by_cases he : cpu' = cpu
    · subst he
      simp only [Config.put,ht,Function.update_self]
      exact ha.flag
    · have hne : c.current cpu' ≠ t := fun hc => he (h.sole (hc.trans ht.symm))
      simp only [Config.put,Function.update_of_ne hne]
      exact (hf.flags cpu' he).trans (h.flag cpu')
  holder t' task := by
    by_cases he : t' = t
    · subst he
      simp only [Config.put,Function.update_self]
      exact ha.holder task
    · simp only [Config.put,Function.update_of_ne he]
      exact (h.holder t' task).trans (hf.mutexes t' he task).symm
  nodup := hnodup
  disjoint := hdisjoint
  alive t' e hmem hcond := by
    by_cases he : t' = t
    · subst he
      simp only [Config.put,Function.update_self] at hcond
      exact ha.alive e hmem hcond
    · simp only [Config.put,Function.update_of_ne he] at hcond
      exact hf.alive h he hmem hcond
  owner t1 t2 e h1 h2 := by
    simp only [Config.put,Function.update_apply] at h1 h2
    split at h1 <;> split at h2
    · exact ‹t1 = t›.trans ‹t2 = t›.symm
    · exact absurd h2 (ha.owner e h1 t2 ‹_›)
    · exact absurd h1 (ha.owner e h2 t1 ‹_›)
    · exact h.owner t1 t2 e h1 h2
  reached e d hd := by
    rcases hreached e d hd with hl | ho | ⟨t',ht',ho⟩
    · exact .inl hl
    · exact .inr ⟨t,by simpa only [Config.put,Function.update_self] using ho⟩
    · exact .inr ⟨t',by simpa only [Config.put,Function.update_of_ne ht'] using ho⟩
  cursor t' := by
    by_cases he : t' = t
    · subst he
      simp only [Config.put,Function.update_self]
      exact ha.cursor
    · simp only [Config.put,Function.update_of_ne he]
      obtain ⟨added,hadd⟩ := hf.lists t' he
      exact hadd.cursor (hf.owned t' he) (h.cursor t')
  query cpu' := by
    by_cases he : cpu' = cpu
    · subst he
      change Query _ cpu' (c.pmi cpu')
      rw [hpmi]
      trivial
    · exact hf.query h ht _ he
  order t' := by
    by_cases he : t' = t
    · subst he
      simp only [Config.put,Function.update_self]
      exact ha.order
    · simp only [Config.put,Function.update_of_ne he]
      obtain ⟨added,hadd⟩ := hf.lists t' he
      exact hadd.order (h.cursor t') (h.order t')

theorem Safe.local (h : Safe c) (ht : c.current cpu = t) (hpmi : c.pmi cpu = .idle)
    (hsame : SameLists c.memory m') (hf : Frame c cpu t m')
    (hflag : m'.pcpuRemovingEvent cpu = preemptOff p')
    (hholder : ∀ task, holds t p' = some task ↔ m'.perfEventMutex task = some t)
    (halive : ∀ e ∈ c.memory.perfEventList t, condemned p' ≠ some e →
      ∃ d, m'.event e = some (.live d))
    (howner : ∀ e, owned p' = some e → ∀ t', t' ≠ t → owned (c.pc t') ≠ some e)
    (hreached : ∀ e d, m'.event e = some (.live d) → (∃ t', e ∈ c.memory.perfEventList t') ∨
      owned p' = some e ∨ ∃ t', t' ≠ t ∧ owned (c.pc t') = some e)
    (hcursor : Cursor c.current m' t p')
    (hpending : pending m' t p' = pending c.memory t (c.pc t)) :
    Safe (c.put t m' p') := by
  refine h.update ht hpmi hf ⟨hflag,hholder,?_,howner,hcursor,?_⟩ ?_ ?_ ?_
  · rwa [hsame.list]
  · rw [hsame.linked,hsame.handed,hpending]
    exact h.order t
  · rw [hsame.list]
    exact h.nodup
  · rw [hsame.list]
    exact h.disjoint
  · rwa [hsame.list]

omit [DecidableEq Task] in
/-- What is in use is on a list or in the hands of this insertion or of another. -/
lemma Safe.reached_cases (h : Safe c) (hp : c.pc t = p) {e : Event} {d : Word}
    (hd : c.memory.event e = some (.live d)) :
    (∃ t', e ∈ c.memory.perfEventList t') ∨ owned p = some e ∨
      ∃ t', t' ≠ t ∧ owned (c.pc t') = some e := by
  rcases h.reached e d hd with hl | ⟨t',ho⟩
  · exact .inl hl
  · by_cases he : t' = t
    · rw [he,hp] at ho
      exact .inr (.inl ho)
    · exact .inr (.inr ⟨t',he,ho⟩)

/-- A step that changes no event, only a mutex or the flag. -/
theorem Safe.move (h : Safe c) (ht : c.current cpu = t) (hpmi : c.pmi cpu = .idle)
    (hp : c.pc t = p) (hsame : SameLists c.memory m') (hevent : m'.event = c.memory.event)
    (hflag : m'.pcpuRemovingEvent cpu = preemptOff p')
    (hflags : ∀ cpu', cpu' ≠ cpu → m'.pcpuRemovingEvent cpu' = c.memory.pcpuRemovingEvent cpu')
    (hholder : ∀ task, holds t p' = some task ↔ m'.perfEventMutex task = some t)
    (hmutexes : ∀ t', t' ≠ t → ∀ task,
      m'.perfEventMutex task = some t' ↔ c.memory.perfEventMutex task = some t')
    (hcondemned : condemned p' = condemned p) (howned : owned p' = owned p)
    (hcursor : Cursor c.current m' t p') (hpending : pending m' t p' = pending c.memory t p) :
    Safe (c.put t m' p') := by
  have hf : Frame c cpu t m' := h.frame hsame (fun _ _ _ _ => by rw [hevent]) hflags hmutexes
  refine h.local ht hpmi hsame hf hflag hholder ?_ ?_ ?_ hcursor (by rw [hpending,hp])
  · rw [hevent,hcondemned,← hp]
    exact h.alive t
  · rw [howned,← hp]
    exact fun e he t' ht' h' => ht' (h.owner t' t e h' he)
  · rw [hevent,howned]
    exact fun e d => h.reached_cases hp

theorem Safe.still (h : Safe c) (ht : c.current cpu = t) (hpmi : c.pmi cpu = .idle)
    (hp : c.pc t = p) (hoff : preemptOff p' = preemptOff p) (hholds : holds t p' = holds t p)
    (hcondemned : condemned p' = condemned p) (howned : owned p' = owned p)
    (hcursor : Cursor c.current c.memory t p')
    (hpending : pending c.memory t p' = pending c.memory t p) :
    Safe (c.put t c.memory p') := by
  refine h.move ht hpmi hp ⟨rfl,rfl,rfl⟩ rfl ?_ (fun _ _ => rfl) ?_ (fun _ _ _ => Iff.rfl)
    hcondemned howned hcursor hpending
  · rw [hoff,h.flag,ht,hp]
  · rw [hholds,← hp]
    exact h.holder t

theorem Safe.lock (h : Safe c) (ht : c.current cpu = t) (hpmi : c.pmi cpu = .idle)
    (hp : c.pc t = p) {task : Task} (hfree : c.memory.perfEventMutex task = none)
    (hholds : holds t p = none) (hholds' : holds t p' = some task)
    (hoff : preemptOff p' = preemptOff p) (hcondemned : condemned p' = condemned p)
    (howned : owned p' = owned p)
    (hcursor : Cursor c.current
      { c.memory with perfEventMutex := Function.update c.memory.perfEventMutex task (some t) } t p')
    (hpending : pending c.memory t p' = pending c.memory t p) :
    Safe (c.put t
      { c.memory with perfEventMutex := Function.update c.memory.perfEventMutex task (some t) }
      p') := by
  subst hp
  refine h.move ht hpmi rfl ⟨rfl,rfl,rfl⟩ rfl ?_ (fun _ _ => rfl) ?_ ?_ hcondemned howned hcursor
    hpending
  · rw [hoff,← ht]
    exact h.flag cpu
  · intro task'
    simp only [hholds',Function.update_apply]
    split
    · rename_i he
      rw [he]
      exact iff_of_true rfl rfl
    · rename_i he
      have hold := h.holder t task'
      rw [hholds] at hold
      exact iff_of_false (fun hs => he (Option.some.inj hs).symm)
        fun hm => nomatch hold.mpr hm
  · intro t' ht' task'
    simp only [Function.update_apply]
    split
    · rename_i he
      rw [he,hfree]
      exact iff_of_false (fun hs => ht' (Option.some.inj hs).symm) fun hs => nomatch hs
    · exact Iff.rfl

theorem Safe.unlock (h : Safe c) (ht : c.current cpu = t) (hpmi : c.pmi cpu = .idle)
    (hp : c.pc t = p) {task : Task} (hholds : holds t p = some task) (hholds' : holds t p' = none)
    (hoff : preemptOff p' = preemptOff p) (hcondemned : condemned p' = condemned p)
    (howned : owned p' = owned p)
    (hcursor : Cursor c.current
      { c.memory with perfEventMutex := Function.update c.memory.perfEventMutex task none } t p')
    (hpending : pending c.memory t p' = pending c.memory t p) :
    Safe (c.put t
      { c.memory with perfEventMutex := Function.update c.memory.perfEventMutex task none } p') := by
  subst hp
  have hmine : c.memory.perfEventMutex task = some t := (h.holder t task).mp hholds
  refine h.move ht hpmi rfl ⟨rfl,rfl,rfl⟩ rfl ?_ (fun _ _ => rfl) ?_ ?_ hcondemned howned hcursor
    hpending
  · rw [hoff,← ht]
    exact h.flag cpu
  · intro task'
    simp only [hholds',Function.update_apply]
    split
    · exact iff_of_false (fun hs => nomatch hs) fun hs => nomatch hs
    · rename_i he
      have hold := h.holder t task'
      rw [hholds] at hold
      exact iff_of_false (fun hs => nomatch hs) fun hm => he (Option.some.inj (hold.mpr hm)).symm
  · intro t' ht' task'
    simp only [Function.update_apply]
    split
    · rename_i he
      rw [he,hmine]
      exact iff_of_false (fun hs => nomatch hs) fun hs => ht' (Option.some.inj hs).symm
    · exact Iff.rfl

theorem Safe.setFlag [DecidableEq Cpu] (h : Safe c) (ht : c.current cpu = t)
    (hpmi : c.pmi cpu = .idle) (hp : c.pc t = p) {on : Bool} (hoff : preemptOff p' = on)
    (hholds : holds t p' = holds t p) (hcondemned : condemned p' = condemned p)
    (howned : owned p' = owned p)
    (hcursor : Cursor c.current { c.memory with
      pcpuRemovingEvent := Function.update c.memory.pcpuRemovingEvent cpu on } t p')
    (hpending : pending c.memory t p' = pending c.memory t p) :
    Safe (c.put t { c.memory with
      pcpuRemovingEvent := Function.update c.memory.pcpuRemovingEvent cpu on } p') := by
  refine h.move ht hpmi hp ⟨rfl,rfl,rfl⟩ rfl ?_ ?_ ?_ (fun _ _ _ => Iff.rfl) hcondemned howned
    hcursor hpending
  · rw [hoff]
    exact Function.update_self ..
  · exact fun cpu' hne => Function.update_of_ne hne ..
  · rw [hholds,← hp]
    exact h.holder t

theorem Safe.create [DecidableEq Event] (h : Safe c) (ht : c.current cpu = t)
    (hpmi : c.pmi cpu = .idle) {task : Task} {data : Word} (hp : c.pc t = .creating task data)
    {e : Event} (hfree : c.memory.event e = none) :
    Safe (c.put t
      { c.memory with event := Function.update c.memory.event e (some (.live data)) }
      (.addLocking task e)) := by
  have hflag := h.flag cpu
  have hholder := h.holder t
  rw [ht,hp] at hflag
  rw [hp] at hholder
  have hnew : ∀ t', e ∉ c.memory.perfEventList t' := fun t' hmem => h.linked_ne_none hmem hfree
  have howned : ∀ t', owned (c.pc t') ≠ some e := by
    intro t' ho
    obtain ⟨⟨d,hd⟩,-⟩ := h.unlinked ho
    rw [hfree] at hd
    cases hd
  have hf : Frame c cpu t
      { c.memory with event := Function.update c.memory.event e (some (.live data)) } := by
    refine h.frame ⟨rfl,rfl,rfl⟩ ?_ (fun _ _ => rfl) fun _ _ _ => Iff.rfl
    intro t' _ e' he'
    apply Function.update_of_ne
    rintro rfl
    exact he'.elim (hnew t') (howned t')
  refine h.local ht hpmi ⟨rfl,rfl,rfl⟩ hf hflag hholder ?_ ?_ ?_ ?_ ?_
  · intro e' hmem _
    have hne : e' ≠ e := fun he => hnew t (he ▸ hmem)
    obtain ⟨d,hd⟩ := h.alive t e' hmem (by rw [hp]; simp [condemned])
    exact ⟨d,(Function.update_of_ne hne ..).trans hd⟩
  · intro e' he' t' _
    obtain rfl : e = e' := Option.some.inj he'
    exact howned t'
  · intro e' d hd
    by_cases he : e' = e
    · exact .inr (.inl (congrArg some he.symm))
    · simp only [Function.update_of_ne he] at hd
      exact (h.reached_cases hp hd).imp_right fun ho => ho.elim (fun hn => nomatch hn) .inr
  · exact ⟨⟨data,Function.update_self ..⟩,hnew⟩
  · rw [hp]
    apply List.map_congr_left
    intro e' hmem
    have hne : e' ≠ e := fun he => hnew t (he ▸ hmem)
    simp only [Memory.datum,Function.update_of_ne hne]

lemma Memory.mem_link {m : Memory Cpu Task Event} {task t' : Task} {e e' : Event} :
    e' ∈ (m.link task e).perfEventList t' ↔ e' ∈ m.perfEventList t' ∨ t' = task ∧ e' = e := by
  by_cases he : t' = task
  · subst he
    simp [Memory.link]
  · simp [Memory.link,he]

lemma Memory.extends_link (task : Task) {e : Event} {d : Word}
    (hd : c.memory.event e = some (.live d)) (t' : Task) :
    ∃ added, Extends c.memory (c.memory.link task e) t' added := by
  by_cases he : t' = task
  · subst he
    refine ⟨[e],Function.update_self ..,Function.update_self ..,rfl,fun _ _ => rfl,?_⟩
    intro e' he'
    obtain rfl := List.mem_singleton.mp he'
    exact ⟨d,hd⟩
  · exact ⟨[],Extends.of_same (Function.update_of_ne he ..) (Function.update_of_ne he ..) rfl
      fun _ _ => rfl⟩

theorem Safe.link (h : Safe c) (ht : c.current cpu = t) (hpmi : c.pmi cpu = .idle) {task : Task}
    {e : Event} (hp : c.pc t = .addLinking task e) :
    Safe (c.put t (c.memory.link task e) (.addUnlocking task)) := by
  have hflag := h.flag cpu
  have hholder := h.holder t
  rw [ht,hp] at hflag
  rw [hp] at hholder
  have ho : owned (c.pc t) = some e := by rw [hp]; rfl
  obtain ⟨⟨d,hd⟩,hout⟩ := h.unlinked ho
  have hf : Frame c cpu t (c.memory.link task e) := by
    refine ⟨fun t' _ => Memory.extends_link task hd t',fun _ _ => rfl,fun _ _ _ => Iff.rfl,?_⟩
    intro t' ht' e' ho'
    refine ⟨rfl,fun t'' he' => ?_⟩
    rcases Memory.mem_link.mp he' with he' | ⟨-,rfl⟩
    · exact (h.unlinked ho').2 t'' he'
    · exact ht' (h.owner t' t e' ho' ho)
  refine h.update ht hpmi hf ⟨hflag,hholder,?_,fun _ hn => (nomatch hn),trivial,?_⟩ ?_ ?_ ?_
  · intro e' he' _
    rcases Memory.mem_link.mp he' with he' | ⟨-,rfl⟩
    · exact h.alive t e' he' (by rw [hp]; simp [condemned])
    · exact ⟨d,hd⟩
  · obtain ⟨added,hadd⟩ := Memory.extends_link task hd t
    have horder := hadd.order (h.cursor t) (h.order t)
    rw [hp] at horder
    exact horder
  · intro t'
    by_cases he : t' = task
    · subst he
      simp only [Memory.link,Function.update_self]
      exact (h.nodup t').append (List.nodup_singleton e) (by simpa using hout t')
    · simp only [Memory.link,Function.update_of_ne he]
      exact h.nodup t'
  · intro t1 t2 e' h1 h2
    rcases Memory.mem_link.mp h1 with hold1 | ⟨he1,rfl⟩ <;>
      rcases Memory.mem_link.mp h2 with hold2 | ⟨he2,he⟩
    · exact h.disjoint t1 t2 e' hold1 hold2
    · exact absurd (he ▸ hold1) (hout t1)
    · exact absurd hold2 (hout t2)
    · exact he1.trans he2.symm
  · intro e' d' hd'
    rcases h.reached_cases hp hd' with ⟨t',hl⟩ | ho' | ho'
    · exact .inl ⟨t',Memory.mem_link.mpr (.inl hl)⟩
    · obtain rfl : e = e' := Option.some.inj ho'
      exact .inl ⟨task,Memory.mem_link.mpr (.inr ⟨rfl,rfl⟩)⟩
    · exact .inr (.inr ho')

/-- The first event of the own list changes under a removal. -/
theorem Safe.changeHead [DecidableEq Event] (h : Safe c) (ht : c.current cpu = t)
    (hpmi : c.pmi cpu = .idle) (hp : c.pc t = p) {e : Event} {l : Life Cpu}
    (hhead : (c.memory.perfEventList t).head? = some e)
    (hoff : preemptOff p' = preemptOff p) (hholds : holds t p' = holds t p)
    (hcondemned : condemned p = none) (hlive : condemned p' ≠ some e → ∃ d, l = .live d)
    (howned : owned p = none) (howned' : owned p' = none)
    (hcursor : Cursor c.current
      { c.memory with event := Function.update c.memory.event e (some l) } t p')
    (hpending : pending { c.memory with event := Function.update c.memory.event e (some l) } t p' =
      pending c.memory t p) :
    Safe (c.put t { c.memory with event := Function.update c.memory.event e (some l) } p') := by
  subst hp
  have hflag := h.flag cpu
  have hmem : e ∈ c.memory.perfEventList t := List.mem_of_head? hhead
  rw [ht,← hoff] at hflag
  have hf : Frame c cpu t
      { c.memory with event := Function.update c.memory.event e (some l) } := by
    refine h.frame ⟨rfl,rfl,rfl⟩ ?_ (fun _ _ => rfl) fun _ _ _ => Iff.rfl
    intro t' ht' e' he'
    apply Function.update_of_ne
    rintro rfl
    rcases he' with he' | ho
    · exact ht' (h.disjoint t' t e' he' hmem)
    · exact (h.unlinked ho).2 t hmem
  refine h.local ht hpmi ⟨rfl,rfl,rfl⟩ hf hflag ?_ ?_ ?_ ?_ hcursor hpending
  · rw [hholds]
    exact h.holder t
  · intro e' he' hcond
    by_cases he : e' = e
    · subst he
      obtain ⟨d,rfl⟩ := hlive hcond
      exact ⟨d,Function.update_self ..⟩
    · obtain ⟨d,hd⟩ := h.alive t e' he' (by rw [hcondemned]; simp)
      exact ⟨d,(Function.update_of_ne he ..).trans hd⟩
  · intro e' he'
    rw [howned'] at he'
    cases he'
  · intro e' d hd
    by_cases he : e' = e
    · subst he
      exact .inl ⟨t,hmem⟩
    · simp only [Function.update_of_ne he] at hd
      have hcases := h.reached_cases (t := t) rfl hd
      rw [howned] at hcases
      exact hcases.imp_right fun ho => ho.elim (fun hn => nomatch hn) .inr

theorem Safe.clear [DecidableEq Event] (h : Safe c) (ht : c.current cpu = t)
    (hpmi : c.pmi cpu = .idle) {data : Word} {e : Event} (hp : c.pc t = .clearing data e)
    (hhead : (c.memory.perfEventList t).head? = some e)
    (hd : c.memory.event e = some (.live data)) :
    Safe (c.put t { c.memory with event := Function.update c.memory.event e (some (.live NULL)) }
      (.releasing data e)) := by
  refine h.changeHead ht hpmi hp hhead rfl rfl rfl (fun _ => ⟨NULL,rfl⟩) rfl rfl
    ⟨hhead,Function.update_self ..⟩ ?_
  have htail := h.datum_tail (.live NULL) hhead
  obtain ⟨rest,hlist⟩ := exists_rest hhead
  have hdatum : c.memory.datum e = data := by rw [Memory.datum,hd]
  rw [hlist,List.tail_cons] at htail
  simp only [pending,hlist,List.tail_cons,List.map_cons,htail,hdatum]

theorem Safe.release [DecidableEq Event] (h : Safe c) (ht : c.current cpu = t)
    (hpmi : c.pmi cpu = .idle) {data : Word} {e : Event} (hp : c.pc t = .releasing data e)
    (hhead : (c.memory.perfEventList t).head? = some e) :
    Safe (c.put t
      { c.memory with event := Function.update c.memory.event e (some (.released cpu)) }
      (.delLocking data e)) :=
  h.changeHead ht hpmi hp hhead rfl rfl rfl (fun hne => absurd rfl hne) rfl rfl
    ⟨hhead,cpu,ht,Function.update_self ..⟩ (congrArg (data :: ·) (h.datum_tail _ hhead))

lemma Memory.mem_of_mem_unlink [DecidableEq Event] {m : Memory Cpu Task Event} {data : Word}
    {e e' : Event} {t' : Task} (he' : e' ∈ (m.unlink t data e).perfEventList t') :
    e' ∈ m.perfEventList t' := by
  by_cases he : t' = t
  · subst he
    simp only [Memory.unlink,Function.update_self] at he'
    exact List.mem_of_mem_erase he'
  · simpa only [Memory.unlink,Function.update_of_ne he] using he'

theorem Safe.unlink [DecidableEq Event] (h : Safe c) (ht : c.current cpu = t)
    (hpmi : c.pmi cpu = .idle) {data : Word} {e : Event} (hp : c.pc t = .unlinking data e) :
    Safe (c.put t (c.memory.unlink t data e) (.delUnlocking data)) := by
  have hflag := h.flag cpu
  have hholder := h.holder t
  have horder := h.order t
  rw [ht,hp] at hflag
  rw [hp] at hholder horder
  obtain ⟨hhead,-,cpu',-,hreleased⟩ := h.released (t := t) (e := e) (by rw [hp]; rfl)
  have hf : Frame c cpu t (c.memory.unlink t data e) := by
    refine ⟨?_,fun _ _ => rfl,fun _ _ _ => Iff.rfl,?_⟩
    · exact fun t' he => ⟨[],Extends.of_same (Function.update_of_ne he ..) rfl
        (Function.update_of_ne he ..) fun _ _ => rfl⟩
    · exact fun t' _ e' ho => ⟨rfl,fun t'' he' =>
        (h.unlinked ho).2 t'' (Memory.mem_of_mem_unlink he')⟩
  refine h.update ht hpmi hf ⟨hflag,hholder,?_,fun _ hn => (nomatch hn),.inr ?_,?_⟩ ?_ ?_ ?_
  · intro e' he' _
    have hne : e' ≠ e := by
      simp only [Memory.unlink,Function.update_self] at he'
      exact ((h.nodup t).mem_erase_iff.mp he').1
    refine h.alive t e' (Memory.mem_of_mem_unlink he') ?_
    rw [hp]
    exact fun hcond => hne (Option.some.inj hcond).symm
  · simp [Memory.unlink]
  · obtain ⟨rest,hlist⟩ := exists_rest hhead
    rw [pending,hlist,List.tail_cons] at horder
    simp only [pending,Memory.unlink,Function.update_self,hlist,List.erase_cons_head,horder,
      List.append_assoc,List.cons_append,List.nil_append]
    rfl
  · intro t'
    by_cases he : t' = t
    · subst he
      simp only [Memory.unlink,Function.update_self]
      exact (h.nodup t').erase e
    · simp only [Memory.unlink,Function.update_of_ne he]
      exact h.nodup t'
  · exact fun t1 t2 e' h1 h2 =>
      h.disjoint t1 t2 e' (Memory.mem_of_mem_unlink h1) (Memory.mem_of_mem_unlink h2)
  · intro e' d hd
    rcases h.reached_cases hp hd with ⟨t',hl⟩ | ho | ho
    · refine .inl ⟨t',?_⟩
      by_cases he : t' = t
      · subst he
        simp only [Memory.unlink,Function.update_self]
        refine (h.nodup t').mem_erase_iff.mpr ⟨?_,hl⟩
        rintro rfl
        rw [Memory.unlink,hreleased] at hd
        cases hd
      · simp only [Memory.unlink,Function.update_of_ne he]
        exact hl
    · cases ho
    · exact .inr (.inr ho)

/-- Every step of a task keeps the invariant, a removal that would have to sleep apart. -/
theorem Safe.advance [DecidableEq Cpu] [DecidableEq Event] (h : Safe c) (ht : c.current cpu = t)
    (hpmi : c.pmi cpu = .idle)
    (hfree : locksToDel (c.pc t) = true → c.memory.perfEventMutex t = none)
    {create : Option Event} (ha : advance cpu t create c.memory (c.pc t) = some (m',p')) :
    Safe (c.put t m' p') := by
  have hcur := h.cursor t
  cases hp : c.pc t <;> rw [hp] at ha hcur <;> simp only [Preempted.advance] at ha
  case idle | returning | fault => cases ha
  case addChecking task data =>
    cases ha
    split <;> exact h.still ht hpmi hp rfl rfl rfl rfl trivial rfl
  case addReading task data =>
    split at ha <;> cases ha <;> exact h.still ht hpmi hp rfl rfl rfl rfl trivial rfl
  case creating task data =>
    split at ha
    · cases ha
      exact h.still ht hpmi hp rfl rfl rfl rfl trivial rfl
    · split at ha <;> cases ha
      exact h.create ht hpmi hp ‹_›
  case addLocking task e =>
    split at ha <;> cases ha
    exact h.lock ht hpmi hp ‹_› rfl rfl rfl rfl rfl hcur rfl
  case addLinking task e =>
    rw [if_pos (h.writable_tail hp)] at ha
    cases ha
    exact h.link ht hpmi hp
  case addUnlocking task =>
    cases ha
    exact h.unlock ht hpmi hp rfl rfl rfl rfl rfl trivial rfl
  case delChecking =>
    cases ha
    split
    · exact h.still ht hpmi hp rfl rfl rfl rfl (.inl rfl) rfl
    · exact h.still ht hpmi hp rfl rfl rfl rfl trivial rfl
  case delReading =>
    split at ha <;> cases ha
    · exact h.still ht hpmi hp rfl rfl rfl rfl (.inl rfl) rfl
    · rename_i e rest hlist
      exact h.still ht hpmi hp rfl rfl rfl rfl (by rw [Cursor,hlist]; rfl) rfl
  case taking e =>
    obtain ⟨d,hd⟩ := h.alive t e (List.mem_of_head? hcur) (by rw [hp]; simp [condemned])
    rw [hd] at ha
    cases ha
    exact h.still ht hpmi hp rfl rfl rfl rfl ⟨e,hcur,hd⟩ rfl
  case disabling data =>
    cases ha
    exact h.setFlag ht hpmi hp rfl rfl rfl rfl hcur rfl
  case destroying data =>
    obtain ⟨e,hhead,hd⟩ := hcur
    obtain ⟨rest,hlist⟩ := exists_rest hhead
    rw [hlist] at ha
    cases ha
    exact h.still ht hpmi hp rfl rfl rfl rfl ⟨hhead,hd⟩ rfl
  case clearing data e =>
    obtain ⟨hhead,hd⟩ := hcur
    rw [hd] at ha
    cases ha
    exact h.clear ht hpmi hp hhead hd
  case releasing data e =>
    obtain ⟨hhead,hd⟩ := hcur
    rw [hd] at ha
    cases ha
    exact h.release ht hpmi hp hhead
  case delLocking data e =>
    rw [hp] at hfree
    rw [hfree rfl] at ha
    cases ha
    exact h.lock ht hpmi hp (hfree rfl) rfl rfl rfl rfl rfl hcur rfl
  case sleeping data e => exact hcur.elim
  case unlinking data e =>
    rw [if_pos (h.writable_del hp)] at ha
    cases ha
    exact h.unlink ht hpmi hp
  case delUnlocking data =>
    cases ha
    exact h.unlock ht hpmi hp rfl rfl rfl rfl rfl hcur rfl
  case enabling data =>
    cases ha
    exact h.setFlag ht hpmi hp rfl rfl rfl rfl hcur rfl
  case queryChecking task =>
    cases ha
    split <;> exact h.still ht hpmi hp rfl rfl rfl rfl trivial rfl
  case queryReading task =>
    cases ha
    exact h.still ht hpmi hp rfl rfl rfl rfl trivial rfl

end Steps

section Actions
variable [DecidableEq Cpu] {c : Config Cpu Task Event}

lemma Safe.setPmi (h : Safe c) {cpu : Cpu} {q : PmiPc Event} (hq : Query c cpu q) :
    Safe { c with pmi := Function.update c.pmi cpu q } :=
  ⟨h.sole,h.running,h.flag,h.holder,h.nodup,h.disjoint,h.alive,h.owner,h.reached,h.cursor,
    fun cpu' => by
      by_cases he : cpu' = cpu
      · subst he
        simp only [Function.update_self]
        exact hq
      · simp only [Function.update_of_ne he]
        exact h.query cpu',h.order⟩

omit [DecidableEq Cpu] in
/-- A task with preemption on has released nothing that is still linked. -/
lemma Safe.calm (h : Safe c) {t : Task} (hoff : preemptOff (c.pc t) = false) :
    condemned (c.pc t) = none ∧
      pending c.memory t (c.pc t) = (c.memory.perfEventList t).map c.memory.datum := by
  have hcur := h.cursor t
  cases hp : c.pc t <;> rw [hp] at hcur hoff
  case releasing | delLocking | unlinking => cases hoff
  case sleeping => exact hcur.elim
  all_goals exact ⟨rfl,rfl⟩

omit [DecidableEq Cpu] in
/-- A PMI meets the first event of the current task only while it is in use: the flag tells it of
the task's own removal, and no one else removes. -/
theorem Safe.pmiAdvance (h : Safe c) (cpu : Cpu) :
    Query c cpu (pmiAdvance cpu (c.current cpu) c.memory (c.pmi cpu)) := by
  have hquery := h.query cpu
  cases hp : c.pmi cpu <;> rw [hp] at hquery
  case idle | done | fault => exact hquery
  case checking =>
    simp only [Preempted.pmiAdvance]
    split
    · exact .inl rfl
    · exact Bool.eq_false_iff.mpr ‹_›
  case reading =>
    simp only [Preempted.pmiAdvance]
    split
    · exact .inl rfl
    · rename_i e rest hlist
      exact ⟨hquery,by rw [hlist]; rfl⟩
  case deref e =>
    obtain ⟨hflag,hhead⟩ := hquery
    obtain ⟨hcond,hpending⟩ := h.calm ((h.flag cpu).symm.trans hflag)
    obtain ⟨d,hd⟩ := h.alive _ e (List.mem_of_head? hhead) (by rw [hcond]; simp)
    have horder := h.order (c.current cpu)
    obtain ⟨rest,hlist⟩ := exists_rest hhead
    have hdatum : c.memory.datum e = d := by rw [Memory.datum,hd]
    rw [hpending,hlist,List.map_cons,hdatum] at horder
    simp only [Preempted.pmiAdvance,hd]
    exact .inr ⟨_,horder⟩

/-- The scheduler puts a task that runs nowhere in the place of one that has preemption on. -/
theorem Safe.switch (h : Safe c) {cpu : Cpu} {task : Task} (hpmi : c.pmi cpu = .idle)
    (hoff : preemptOff (c.pc (c.current cpu)) = false) (hfree : ∀ cpu', c.current cpu' ≠ task) :
    Safe { c with current := Function.update c.current cpu task } where
  sole cpu1 cpu2 he := by
    by_cases e1 : cpu1 = cpu <;> by_cases e2 : cpu2 = cpu
    · rw [e1,e2]
    · simp only [e1,Function.update_self,Function.update_of_ne e2] at he
      exact absurd he.symm (hfree cpu2)
    · simp only [e2,Function.update_self,Function.update_of_ne e1] at he
      exact absurd he (hfree cpu1)
    · simp only [Function.update_of_ne e1,Function.update_of_ne e2] at he
      exact h.sole he
  running t ht := by
    obtain ⟨cpu',rfl⟩ := h.running t ht
    refine ⟨cpu',Function.update_of_ne ?_ ..⟩
    rintro rfl
    rw [hoff] at ht
    cases ht
  flag cpu' := by
    by_cases he : cpu' = cpu
    · subst he
      simp only [Function.update_self]
      rw [h.flag,hoff]
      apply Eq.symm
      apply Bool.eq_false_iff.mpr
      intro hon
      obtain ⟨cpu'',hrun⟩ := h.running task hon
      exact hfree cpu'' hrun
    · simp only [Function.update_of_ne he]
      exact h.flag cpu'
  holder := h.holder
  nodup := h.nodup
  disjoint := h.disjoint
  alive := h.alive
  owner := h.owner
  reached := h.reached
  cursor t := by
    have hcur := h.cursor t
    change Cursor _ c.memory t (c.pc t)
    cases hp : c.pc t <;> rw [hp] at hcur
    case delLocking data e | unlinking data e =>
      obtain ⟨hhead,cpu',hcpu,hd⟩ := hcur
      refine ⟨hhead,cpu',(Function.update_of_ne ?_ ..).trans hcpu,hd⟩
      rintro rfl
      rw [hcpu,hp] at hoff
      cases hoff
    case returning res => cases res <;> exact hcur
    all_goals exact hcur
  query cpu' := by
    by_cases he : cpu' = cpu
    · subst he
      change Query _ cpu' (c.pmi cpu')
      rw [hpmi]
      trivial
    · have hquery := h.query cpu'
      change Query _ cpu' (c.pmi cpu')
      cases hp : c.pmi cpu' <;> rw [hp] at hquery
      case deref e => simpa only [Query,Function.update_of_ne he] using hquery
      case done data => simpa only [Query,Function.update_of_ne he] using hquery
      all_goals exact hquery
  order := h.order

omit [DecidableEq Cpu] in
lemma Safe.not_mem_of_released (h : Safe c) {cpu : Cpu} {e : Event}
    (he : c.memory.event e = some (.released cpu))
    (hoff : preemptOff (c.pc (c.current cpu)) = false) (t : Task) :
    e ∉ c.memory.perfEventList t := by
  intro hmem
  by_cases hcond : condemned (c.pc t) = some e
  · obtain ⟨-,hon,cpu',hcpu,hd⟩ := h.released hcond
    obtain rfl : cpu = cpu' := by
      rw [he] at hd
      exact Life.released.inj (Option.some.inj hd)
    rw [hcpu,hon] at hoff
    cases hoff
  · obtain ⟨d,hd⟩ := h.alive t e hmem hcond
    rw [he] at hd
    cases hd

omit [DecidableEq Cpu] in
theorem Safe.rcu [DecidableEq Event] (h : Safe c) {cpu : Cpu} {e : Event}
    (he : c.memory.event e = some (.released cpu))
    (hoff : preemptOff (c.pc (c.current cpu)) = false) :
    Safe { c with memory := { c.memory with event := Function.update c.memory.event e none } } := by
  have hout := h.not_mem_of_released he hoff
  have hevent : ∀ e', e' ≠ e → Function.update c.memory.event e none e' = c.memory.event e' :=
    fun e' hne => Function.update_of_ne hne ..
  have hext : ∀ t, Extends c.memory
      { c.memory with event := Function.update c.memory.event e none } t [] := by
    intro t
    refine Extends.of_same rfl rfl rfl fun e' he' => hevent e' ?_
    rintro rfl
    exact hout t he'
  refine ⟨h.sole,h.running,h.flag,h.holder,h.nodup,h.disjoint,?_,h.owner,?_,?_,?_,?_⟩
  · intro t e' he' hcond
    obtain ⟨d,hd⟩ := h.alive t e' he' hcond
    exact ⟨d,((hext t).event e' he').trans hd⟩
  · intro e' d hd
    have hne : e' ≠ e := by
      rintro rfl
      simp at hd
    exact h.reached e' d ((hevent e' hne).symm.trans hd)
  · intro t
    refine (hext t).cursor ?_ (h.cursor t)
    intro e' ho
    obtain ⟨⟨d,hd⟩,hlists⟩ := h.unlinked ho
    refine ⟨hevent e' ?_,hlists⟩
    rintro rfl
    rw [he] at hd
    cases hd
  · intro cpu'
    have hquery := h.query cpu'
    change Query _ cpu' (c.pmi cpu')
    cases hp : c.pmi cpu' <;> rw [hp] at hquery <;> exact hquery
  · exact fun t => (hext t).order (h.cursor t) (h.order t)

variable [Fintype Cpu] [DecidableEq Task] [DecidableEq Event]

/-- Whatever happens next, the invariant holds. -/
theorem Safe.next (h : Safe c) (a : Action Cpu Task Event) (ha : Uncontended c a) :
    Safe (next c a) := by
  cases a with
  | call cpu op =>
    simp only [Preempted.next]
    split
    · rename_i hidle
      cases op <;> exact h.still rfl hidle.1 hidle.2 rfl rfl rfl rfl trivial rfl
    · exact h
  | step cpu create =>
    simp only [Preempted.next]
    split
    · rename_i hpmi
      split
      · rename_i m pc hadvance
        exact h.advance rfl hpmi (fun hlock => ha ⟨hpmi,hlock⟩) hadvance
      · exact h
    · exact h
  | ret cpu =>
    simp only [Preempted.next]
    split
    · rename_i hpmi
      split
      · rename_i res hp
        exact h.still rfl hpmi hp rfl rfl rfl rfl trivial rfl
      · exact h
    · exact h
  | switch cpu task =>
    simp only [Preempted.next]
    split
    · rename_i hswitch
      exact h.switch hswitch.1 hswitch.2.1 hswitch.2.2
    · exact h
  | pmi cpu =>
    simp only [Preempted.next]
    split
    · exact h.setPmi trivial
    · exact h
  | pmiStep cpu => exact h.setPmi (h.pmiAdvance cpu)
  | pmiRet cpu =>
    simp only [Preempted.next]
    split
    · exact h.setPmi trivial
    · exact h
  | rcu e =>
    simp only [Preempted.next]
    split
    · rename_i cpu he
      split
      · exact h
      · exact h.rcu he (Bool.eq_false_iff.mpr ‹_›)
    · exact h

/-- A removal that sleeps leaves the flag up, on a CPU that goes on with other tasks. -/
theorem Safe.uncontended (h : Safe c) {a : Action Cpu Task Event}
    (hsound : Sound (Preempted.next c a)) : Uncontended c a := by
  cases a with
  | step cpu create =>
    rintro ⟨hpmi,hlock⟩
    by_contra htaken
    obtain ⟨holder,hholder⟩ := Option.ne_none_iff_exists'.mp htaken
    have hflag := h.flag cpu
    have hflag' := hsound.flags cpu
    cases hp : c.pc (c.current cpu) <;> rw [hp] at hlock <;> cases hlock
    simp only [Preempted.next,if_pos hpmi,hp,Preempted.advance,hholder,Config.put,
      Function.update_self] at hflag'
    rw [hp,hflag'] at hflag
    cases hflag
  | _ => trivial

/-- In every interleaving, with tasks moved between CPUs and PMIs anywhere, the tracker keeps all
its promises in every state exactly if no removal comes upon a mutex that is taken. -/
theorem events_safe_iff {current : Cpu → Task} (hcurrent : Function.Injective current)
    (as : List (Action Cpu Task Event)) :
    (∀ n, Sound ((as.take n).foldl Preempted.next (initial current))) ↔
      Admits Preempted.next Uncontended (initial current) as := by
  have hinit : Safe (initial current : Config Cpu Task Event) := safe_initial hcurrent
  rw [forall_take_iff,and_iff_right hinit.sound]
  exact admits_iff_of_invariant (I := Safe)
    (fun c a h => ⟨h.uncontended,fun ha => (h.next a ha).sound⟩) (fun c a h ha => h.next a ha) as
    hinit

end Actions

/-- A task registers another, which runs on the second CPU and removes itself; PMIs strike it before
the removal, under the flag, and after the release. -/
def struck : List (Action (Fin 2) (Fin 2) ℕ) :=
  let del := List.replicate 4 (.step 1 none)
  let pmi := [.pmi 1,.pmiStep 1,.pmiStep 1,.pmiStep 1]
  [.call 0 (.add 1 0x5000)] ++ List.replicate 6 (.step 0 (some 7)) ++ pmi ++ [.pmiRet 1,.call 1 .del] ++
    del ++ pmi ++ [.pmiRet 1] ++ List.replicate 3 (.step 1 none) ++ pmi ++ [.rcu 7]

theorem events_safe_struck :
    (struck.foldl next (initial id)).pmi 1 = .done NULL ∧
      ∀ n, Sound ((struck.take n).foldl next (initial id)) :=
  ⟨by decide,(events_safe_iff Function.injective_id struck).mpr (by decide)⟩

/-- Two tasks register a third one at a time. It exits while the second holds its mutex: it sleeps
with its flag up, the released event is freed, and the second task links its own behind that. -/
example :
    let adds := [.switch 0 2,.call 0 (.add 1 0x6000)] ++ List.replicate 6 (.step 0 (some 8)) ++
      [.switch 0 0,.step 0 (some 7),.step 0 none]
    let run := [.call 0 (.add 1 0x5000),.step 0 none,.step 0 none] ++ adds ++
      [.call 1 .del] ++ List.replicate 8 (.step 1 none)
    let c := run.foldl next (initial fun cpu : Fin 2 => (cpu.castSucc : Fin 3))
    c.memory.pcpuRemovingEvent 1 = true ∧ c.pc 1 = .sleeping 0x6000 8 ∧
      (([.rcu 8,.step 0 none] : List (Action (Fin 2) (Fin 3) ℕ)).foldl next c).pc 0 = .fault := by
  decide

end PmuMin.Perf.Preempted
