import Udev.WorkerLists

/-! The event queue never gets stuck: as long as the workers handle the device
messages they were sent, the queue can be emptied from every reachable state
by handling alone, with no event dropped or timed out. -/
namespace Udev
namespace Drain

open Runs EventQueue Daemon Workers Ownership WorkerLists

/-- The process will handle the event that its worker was given, or it failed. -/
def Working (p : Process) : Prop :=
  p.phase = .handling ∨ 0 < p.inbox ∧ (p.phase = .sent false ∨ p.phase = .waiting) ∨
    ∃ st, p.phase = .dead st ∧ st ≠ .exited 0

def Promised (d : State) (w : Worker) : Prop :=
  w.pid ∈ d.messages ∨ ∃ p ∈ d.procs, p.pid = w.pid ∧ Working p

def Told (p : Process) : Prop := p.sigterm = true ∨ p.phase = .sent true

structure Live (d : State) : Prop where
  workers : Workers.Inv d
  queue : EventQueue.Inv d.queue ∧ Addresses d.queue ∧ Serialization.Serial d.queue
  procs : (d.procs.map (·.pid)).Nodup
  told : ∀ p ∈ d.procs, Told p → ∀ w ∈ d.workers, w.pid = p.pid → w.state = .killed
  workerStates : ∀ w ∈ d.workers, w.state ≠ .undef
  eventStates : ∀ e ∈ d.queue.events, e.state ≠ .undef
  promised : ∀ w ∈ d.workers, w.event ≠ none → Promised d w

def Attentive (d : State) : Act → Prop
  | .receive _ usable => usable = true
  | .readSigterm pid | .pollFails pid => ∀ p ∈ d.procs, p.pid = pid → p.inbox = 0
  | _ => True

/-- The SEQNUMs increase, no timeout hits a reaped process, no process number is
reused too early, and the workers are attentive. -/
def Steady (d : State) (a : Act) : Prop := Serialization.SeqnumsIncrease d a ∧ Fresh d a ∧ Attentive d a

instance decidableAttentive (d : State) : (a : Act) → Decidable (Attentive d a)
  | .receive _ usable => inferInstanceAs (Decidable (usable = true))
  | .readSigterm pid | .pollFails pid => inferInstanceAs (Decidable (∀ p ∈ d.procs, p.pid = pid → p.inbox = 0))
  | .insert _ | .start .. | .returned | .reap _ | .expire _ | .kill | .cleanup | .setMax _ | .fail ..
  | .handled .. | .leave _ | .goOn _ | .crash .. => isTrue trivial

instance decidableFresh (d : State) : (a : Act) → Decidable (Fresh d a)
  | .expire id => inferInstanceAs (Decidable (∀ w ∈ d.workers, w.id = id → unreaped d w.pid = true))
  | .start _ o => inferInstanceAs (Decidable (∀ w ∈ d.workers, o.fork = some w.pid → unreaped d w.pid = true))
  | .insert _ | .returned | .reap _ | .kill | .cleanup | .setMax _ | .fail .. | .handled .. | .leave _
  | .goOn _ | .receive .. | .readSigterm _ | .pollFails _ | .crash .. => isTrue trivial

instance decidableSteady (d : State) (a : Act) : Decidable (Steady d a) :=
  inferInstanceAs (Decidable (Serialization.SeqnumsIncrease d a ∧ Fresh d a ∧ Attentive d a))

theorem live_init : Live {} :=
  ⟨inv_init,⟨inv_empty,Addresses.empty,by simp [Serialization.Serial]⟩,List.nodup_nil,by simp,by simp,by simp,
    by simp⟩

/-- The parts of the invariant that are about the processes, where the workers that are
left were there before and keep their process and their promise. -/
structure Attended (d : State) : Prop where
  procs : (d.procs.map (·.pid)).Nodup
  told : ∀ p ∈ d.procs, Told p → ∀ w ∈ d.workers, w.pid = p.pid → w.state = .killed
  states : ∀ w ∈ d.workers, w.state ≠ .undef
  promised : ∀ w ∈ d.workers, w.event ≠ none → Promised d w

theorem Live.attended {d : State} (h : Live d) : Attended d := ⟨h.procs,h.told,h.workerStates,h.promised⟩

/-- The step of a process keeps its promise, unless the message with it is sent. -/
theorem working_step {p : Process} {a : Act} {r : Process × List ℕ} (h : processStep p a = some r)
    (ha : ∀ pid usable, a = .receive pid usable → usable = true)
    (hs : ∀ pid, a = .readSigterm pid ∨ a = .pollFails pid → p.inbox = 0) (hw : Working p) :
    Working r.1 ∨ p.pid ∈ r.2 := by
  cases a with
  | fail pid rc =>
    simp only [processStep] at h
    split_ifs at h with hc
    cases h
    exact Or.inl (Or.inr (Or.inr ⟨_,rfl,by simpa using hc.2⟩))
  | handled pid sigterm =>
    simp only [processStep] at h
    split_ifs at h with hc
    cases h
    exact Or.inr (by simp)
  | leave pid =>
    simp only [processStep] at h
    split_ifs at h with hc
    rcases hw with hw | ⟨_,hw | hw⟩ | ⟨st,hw,_⟩ <;> simp [hc] at hw
  | goOn pid =>
    simp only [processStep] at h
    split_ifs at h with hc
    cases h
    rcases hw with hw | ⟨hpos,_⟩ | ⟨st,hw,_⟩
    · simp [hc] at hw
    · exact Or.inl (Or.inr (Or.inl ⟨hpos,Or.inr rfl⟩))
    · simp [hc] at hw
  | receive pid usable =>
    obtain rfl := ha pid usable rfl
    simp only [processStep,if_true] at h
    split_ifs at h with hc
    cases h
    exact Or.inl (Or.inl rfl)
  | readSigterm pid =>
    have hno := hs pid (Or.inl rfl)
    simp only [processStep] at h
    split_ifs at h with hc
    rcases hw with hw | ⟨hpos,_⟩ | ⟨st,hw,_⟩
    · simp [hc.1] at hw
    · omega
    · simp [hc.1] at hw
  | pollFails pid =>
    have hno := hs pid (Or.inr rfl)
    simp only [processStep] at h
    split_ifs at h with hc
    rcases hw with hw | ⟨hpos,_⟩ | ⟨st,hw,_⟩
    · simp [hc] at hw
    · omega
    · simp [hc] at hw
  | crash pid sig =>
    simp only [processStep] at h
    split_ifs at h with hc
    cases h
    exact Or.inl (Or.inr (Or.inr ⟨_,rfl,by simp⟩))
  | _ => cases h

theorem told_step {p : Process} {a : Act} {r : Process × List ℕ} (h : processStep p a = some r)
    (ht : Told r.1) : Told p := by
  cases a with
  | handled pid sigterm =>
    simp only [processStep] at h
    split_ifs at h with hc
    cases h
    rcases ht with ht | ht
    · exact Or.inl (by simp at ht; exact ht.1)
    · exact Or.inl (hc.2 (by simpa using ht))
  | receive pid usable =>
    simp only [processStep] at h
    split_ifs at h with hc <;> cases h
    all_goals exact Or.inl (by simpa [Told] using ht)
  | fail _ _ | leave _ | goOn _ | readSigterm _ | pollFails _ | crash _ _ =>
    simp only [processStep] at h
    split_ifs at h
    cases h
    exact Or.inl (by simpa [Told] using ht)
  | _ => cases h

theorem eq_of_pid {ps : List Process} (h : (ps.map (·.pid)).Nodup) {p q : Process} (hp : p ∈ ps) (hq : q ∈ ps)
    (hpid : p.pid = q.pid) : p = q := List.inj_on_of_nodup_map h hp hq hpid

theorem setProcess_pids (d : State) (p : Process) :
    (setProcess d p).procs.map (·.pid) = d.procs.map (·.pid) := by
  simp only [setProcess,List.map_map]
  refine List.map_congr_left fun v _ => ?_
  by_cases hv : v.pid = p.pid <;> simp [hv]

theorem mem_setProcess {d : State} {p q : Process} (h : q ∈ (setProcess d p).procs) :
    q = p ∨ q ∈ d.procs := by
  obtain ⟨v,hv,rfl⟩ := List.mem_map.mp h
  split_ifs
  · exact Or.inl rfl
  · exact Or.inr hv

theorem setProcess_mem {d : State} {p q : Process} (hq : q ∈ d.procs) (hne : q.pid ≠ p.pid) :
    q ∈ (setProcess d p).procs := List.mem_map.mpr ⟨q,hq,by simp [hne]⟩

theorem setProcess_self {d : State} {p q : Process} (hq : q ∈ d.procs) (hpid : q.pid = p.pid) :
    p ∈ (setProcess d p).procs := List.mem_map.mpr ⟨q,hq,by simp [hpid]⟩

theorem Attended.worker {d d' : State} {pid : ℕ} {a : Act} (h : Attended d)
    (ha : ∀ pid usable, a = .receive pid usable → usable = true)
    (hs : ∀ i, a = .readSigterm i ∨ a = .pollFails i → ∀ p ∈ d.procs, p.pid = pid → p.inbox = 0)
    (hstep : workerStep d pid a = some d') : Attended d' := by
  obtain ⟨p,hp,hstep⟩ := Option.bind_eq_some_iff.mp hstep
  obtain ⟨r,hr,rfl⟩ := Option.map_eq_some_iff.mp hstep
  obtain ⟨hmem,hpid⟩ := findProcess_some hp
  have hrpid : r.1.pid = p.pid := processStep_pid hr
  refine ⟨?_,fun q hq ht w hw hwq => ?_,h.states,fun w hw hev => ?_⟩
  · exact (setProcess_pids d r.1).symm ▸ h.procs
  · rcases mem_setProcess hq with rfl | hq
    · exact h.told p hmem (told_step hr ht) w hw (hwq.trans hrpid)
    · exact h.told q hq ht w hw hwq
  · rcases h.promised w hw hev with hm | ⟨q,hq,hqw,hwork⟩
    · exact Or.inl (List.mem_append_left _ hm)
    · by_cases hqp : q.pid = p.pid
      · have heq := eq_of_pid h.procs hq hmem hqp
        subst heq
        rcases working_step hr ha (fun i hi => hs i hi q hmem hpid) hwork with hwork | hm
        · exact Or.inr ⟨r.1,setProcess_self hmem hrpid.symm,hrpid.trans hqw,hwork⟩
        · exact Or.inl (List.mem_append_right _ (hqw ▸ hm))
      · exact Or.inr ⟨q,setProcess_mem hq (hrpid ▸ hqp),hqw,hwork⟩

/-- A step that keeps the processes and the messages, and settles one worker. -/
theorem Attended.settle {d d₁ : State} (h : Attended d) (hd : Workers.Inv d) {w w' : Worker} (hw : w ∈ d.workers)
    (hid : w'.id = w.id) (hpid : w'.pid = w.pid) (hws : d₁.workers = d.workers) (hst : w.state = .killed → w'.state = .killed)
    (hne : w'.state ≠ .undef) (hev : w'.event ≠ none → 0 < w'.refcount → Promised d₁ w')
    (hprocs : ∀ p ∈ d₁.procs, p ∈ d.procs) (hnd : (d₁.procs.map (·.pid)).Nodup)
    (hother : ∀ v ∈ d.workers, v.pid ≠ w.pid → Promised d v → Promised d₁ v) :
    Attended (Workers.settle d₁ w') := by
  have hprocs' : (Workers.settle d₁ w').procs = d₁.procs := by
    unfold Workers.settle
    split_ifs <;> rfl
  have hmsgs : (Workers.settle d₁ w').messages = d₁.messages := by
    unfold Workers.settle
    split_ifs <;> rfl
  have hprom : ∀ v, Promised d₁ v → Promised (Workers.settle d₁ w') v := fun v => by
    rw [Promised,Promised,hprocs',hmsgs]
    exact id
  have hold : ∀ v, v ∈ d₁.workers ∧ v.id ≠ w'.id → v ∈ d.workers ∧ v.pid ≠ w.pid := by
    rintro v ⟨hv,hne⟩
    rw [hws] at hv
    exact ⟨hv,fun hp => hne (by rw [hd.eq_of_pid hv hw hp,hid])⟩
  refine ⟨hprocs' ▸ hnd,fun p hp ht v hv hvp => ?_,fun v hv => ?_,fun v hv hve => hprom v ?_⟩
  · have hmem : p ∈ d.procs := hprocs p (by rwa [hprocs'] at hp)
    rcases mem_settle hv with ⟨rfl,_⟩ | hv
    · exact hst (h.told p hmem ht w hw (hpid ▸ hvp))
    · exact h.told p hmem ht v (hold v hv).1 hvp
  · rcases mem_settle hv with ⟨rfl,_⟩ | hv
    · exact hne
    · exact h.states v (hold v hv).1
  · rcases mem_settle hv with ⟨rfl,hpos⟩ | hv
    · exact hev hve hpos
    · obtain ⟨hv,hvp⟩ := hold v hv
      exact hother v hv hvp (h.promised v hv hve)

/-- A step that keeps the processes and the messages and kills some workers. -/
theorem Attended.kills {d d' : State} (h : Attended d) {g : Worker → Worker} (hg : Kills g)
    (hw : d'.workers = d.workers.map g) (hp : d'.procs = d.procs) (hm : d'.messages = d.messages) :
    Attended d' := by
  have hprom : ∀ w, Promised d w → Promised d' (g w) := fun w hw => by
    have hpid : (g w).pid = w.pid := by rcases hg w with h | h <;> rw [h]
    simpa only [Promised,hp,hm,hpid] using hw
  refine ⟨hp ▸ h.procs,?_,?_,?_⟩ <;> rw [hw]
  · rw [hp]
    refine fun p hp ht => List.forall_mem_map.mpr fun w hw hwp => ?_
    rcases hg w with hgw | hgw <;> rw [hgw] at hwp ⊢
    exact h.told p hp ht w hw hwp
  · refine List.forall_mem_map.mpr fun w hw => ?_
    rcases hg w with hgw | hgw <;> rw [hgw]
    · exact h.states w hw
    · simp
  · refine List.forall_mem_map.mpr fun w hw hev => hprom w (h.promised w hw ?_)
    rcases hg w with hgw | hgw <;> rwa [hgw] at hev

theorem Attended.returned {d d' : State} (h : Attended d) (hd : Workers.Inv d) (hstep : step d .returned = some d') :
    Attended d' := by
  obtain ⟨pid,rest,hm,⟨hno,rfl⟩ | ⟨w,hw,rfl,rfl⟩⟩ := returned_cases hd hstep
  · refine ⟨h.procs,h.told,h.states,fun w hw hev => (h.promised w hw hev).imp_left fun hmem => ?_⟩
    rw [hm] at hmem
    exact (List.mem_cons.mp hmem).resolve_left (hno w hw)
  · obtain ⟨q,hq,_⟩ := release_eq { d with messages := rest } w.event hd.addresses
    rw [hq]
    refine h.settle hd hw rfl rfl rfl (fun hk => by simp [returnedWorker,hk]) ?_ (fun hev => absurd rfl hev)
      (fun _ hp => hp) h.procs fun v _ hv => Or.imp_left fun hmem => ?_
    · simp only [returnedWorker]
      split_ifs <;> simp_all
    · rw [hm] at hmem
      exact (List.mem_cons.mp hmem).resolve_left hv

theorem Attended.reaped {d d' : State} (h : Attended d) (hd : Workers.Inv d) {pid : ℕ}
    (hstep : step d (.reap pid) = some d') : Attended d' := by
  obtain ⟨p,status,hp,hphase,hu,rfl⟩ := reap_cases hstep
  obtain ⟨hmem,hpid⟩ := findProcess_some hp
  have hprocs : ∀ q ∈ (withoutProcess d pid).procs, q ∈ d.procs := fun q hq => List.mem_of_mem_filter hq
  have hnd : ((withoutProcess d pid).procs.map (·.pid)).Nodup :=
    h.procs.sublist (List.filter_sublist.map _)
  have hother : ∀ v, v.pid ≠ pid → Promised d v → Promised (withoutProcess d pid) v := by
    rintro v hne (hm | ⟨q,hq,hqv,hwork⟩)
    · exact Or.inl hm
    · exact Or.inr ⟨q,List.mem_filter.mpr ⟨hq,by simpa [hqv] using hne⟩,hqv,hwork⟩
  rcases reaped_cases hd hu status with ⟨hne,heq⟩ | ⟨w,hw,rfl,⟨hs,heq⟩ | ⟨i,_,hi,heq⟩⟩
  all_goals rw [heq]
  · exact ⟨hnd,fun q hq => h.told q (hprocs q hq),h.states,fun w hw hev => hother w (hne w hw) (h.promised w hw hev)⟩
  · refine h.settle hd hw rfl rfl rfl id (h.states w hw) (fun hev _ => ?_) hprocs hnd fun v _ => hother v
    rcases h.promised w hw hev with hm | ⟨q,hq,hqw,hwork⟩
    · exact Or.inl hm
    · have heq := eq_of_pid h.procs hq hmem (hqw.trans hpid.symm)
      subst heq
      have hzero : status = .exited 0 := hs.resolve_right hev
      rcases hwork with hph | ⟨_,hph | hph⟩ | ⟨st,hph,hst⟩ <;> rw [hphase] at hph <;> cases hph
      exact absurd hzero hst
  · exact h.settle hd hw rfl rfl rfl (fun _ => rfl) (by simp) (fun hev => absurd rfl hev) hprocs hnd fun v _ => hother v

theorem Attended.expired {d d' : State} (h : Attended d) (hd : Workers.Inv d) {id : ℕ} (ha : Fresh d (.expire id))
    (hstep : step d (.expire id) = some d') : Attended d' := by
  obtain ⟨w,hw,hid,_,i,hi,rfl⟩ := expire_cases hstep
  rw [expire_eq hd.ids hw (hd.refcount_two hw (ha w hw hid) hi)]
  exact h.settle hd hw rfl rfl rfl (fun _ => rfl) (by simp) (fun hev => absurd rfl hev) (fun _ hp => hp) h.procs
    fun v _ _ hv => hv

/-- The loop over the workers: either an idle one takes the message and lives, or all
idle ones are killed. -/
theorem eventRunLoop_spec (d : State) (id : ℕ) (refuses : List ℕ) (ws : List Worker) :
    ∃ g, Kills g ∧
      (eventRunLoop d id refuses ws = ({ d with workers := d.workers.map g },false) ∧
        (∀ w ∈ ws, w.state = .idle → ∀ v : Worker, v.id = w.id → (g v).state = .killed) ∨
      ∃ w ∈ ws, w.state = .idle ∧ listening d w.pid = true ∧
        eventRunLoop d id refuses ws = (assign { d with workers := d.workers.map g } id w,true)) := by
  induction ws generalizing d with
  | nil => exact ⟨_,kills_id,Or.inl ⟨by simp [eventRunLoop],by simp⟩⟩
  | cons w ws ih =>
    simp only [eventRunLoop]
    split_ifs with h₁ h₂
    · obtain ⟨g,hg,⟨heq,hall⟩ | ⟨v,hv,h⟩⟩ := ih d
      · refine ⟨g,hg,Or.inl ⟨heq,fun v hv hidle => ?_⟩⟩
        rcases List.mem_cons.mp hv with rfl | hv
        · exact absurd hidle h₁
        · exact hall v hv hidle
      · exact ⟨g,hg,Or.inr ⟨v,List.mem_cons_of_mem w hv,h⟩⟩
    · obtain ⟨g,hg,h⟩ := ih (updateWorker d w.id fun w => { w with state := .killed })
      refine ⟨_,hg.update w.id,?_⟩
      simp only [updateWorker,List.map_map,Function.comp_def] at h
      rcases h with ⟨heq,hall⟩ | ⟨v,hv,h⟩
      · refine Or.inl ⟨heq,fun v hv hidle u hu => ?_⟩
        rcases List.mem_cons.mp hv with rfl | hv
        · rw [if_pos hu]
          rcases hg { u with state := .killed } with hgu | hgu <;> rw [hgu]
        · refine hall v hv hidle _ ?_
          split_ifs <;> exact hu
      · exact Or.inr ⟨v,List.mem_cons_of_mem w hv,h⟩
    · simp only [not_or,not_not] at h₂
      exact ⟨_,kills_id,Or.inr ⟨w,by simp,by simpa using h₁,by simpa using h₂.2,by simp⟩⟩

/-- One round of the loop over the events, for an event that is queued. -/
theorem startEvent_spec {d d' : State} {id : ℕ} {o : StartOracle} (h : startEvent d id o = some d') :
    ∃ e ∈ d.queue.events, e.id = id ∧
      (e.state ≠ .queued ∧ d' = d ∨
      e.state = .queued ∧ (testBusy d.queue e).1 = true ∧ d' = { d with queue := (testBusy d.queue e).2 } ∨
      e.state = .queued ∧ (testBusy d.queue e).1 = false ∧ ∃ g, Kills g ∧
        let d₁ := { d with queue := (testBusy d.queue e).2, workers := d.workers.map g }
        ((∃ w ∈ d.workers, w.state = .idle ∧ listening d w.pid = true ∧ d' = assign d₁ id w) ∨
        (∀ w ∈ d.workers, w.state = .idle → (g w).state = .killed) ∧
          (d.childrenMax ≤ d.children ∧ d' = d₁ ∨
          o.fork = none ∧ d' = setEventState d₁ id .queued ∨
          ∃ pid, o.fork = some pid ∧ unreaped d pid = false ∧ d' = forked d₁ id pid))) := by
  simp only [startEvent] at h
  split at h
  · cases h
  rename_i e he
  obtain ⟨hmem,hid⟩ := mem_of_find? he
  refine ⟨e,hmem,hid,?_⟩
  split_ifs at h with hst hbusy
  · exact Or.inl ⟨hst,(Option.some.inj h).symm⟩
  · exact Or.inr (Or.inl ⟨by simpa using hst,hbusy,(Option.some.inj h).symm⟩)
  · refine Or.inr (Or.inr ⟨by simpa using hst,by simpa using hbusy,?_⟩)
    obtain ⟨g,hg,hr⟩ := eventRunLoop_spec { d with queue := (testBusy d.queue e).2 } id o.refuses d.workers
    refine ⟨g,hg,?_⟩
    unfold eventRun at h
    rcases hr with ⟨hr,hall⟩ | ⟨w,hw,hs,hl,hr⟩
    · refine Or.inr ⟨fun w hw hidle => hall w hw hidle w rfl,?_⟩
      simp only [hr,Bool.false_eq_true,if_false] at h
      split_ifs at h with hmax
      · exact Or.inl ⟨hmax,(Option.some.inj h).symm⟩
      · cases ho : o.fork with
        | none =>
          rw [ho] at h
          exact Or.inr (Or.inl ⟨rfl,(Option.some.inj h).symm⟩)
        | some pid =>
          simp only [ho,workerNew] at h
          split_ifs at h with hu
          exact Or.inr (Or.inr ⟨pid,rfl,by simpa [unreaped] using hu,(Option.some.inj h).symm⟩)
    · simp only [hr,if_true,Option.some.injEq] at h
      exact Or.inl ⟨w,hw,hs,hl,h.symm⟩

theorem working_more {p : Process} (h : Working p) : Working { p with inbox := p.inbox+1 } :=
  h.imp id (Or.imp_left fun h => ⟨Nat.succ_pos _,h.2⟩)

/-- An idle worker that lives has a process that will take its message. -/
theorem Attended.assigned {d : State} (h : Attended d) {g : Worker → Worker} (hg : Kills g) (q : Queue)
    (hids : (d.workers.map (·.id)).Nodup) {w : Worker} (hw : w ∈ d.workers) (hidle : w.state = .idle)
    (hl : listening d w.pid = true) (id : ℕ) :
    Attended (assign { d with queue := q, workers := d.workers.map g } id w) := by
  set d₂ := assign { d with queue := q, workers := d.workers.map g } id w with hd₂
  have hnot : ∀ p ∈ d.procs, p.pid = w.pid → ¬Told p := fun p hp hpid ht => by
    have := h.told p hp ht w hw hpid.symm
    simp [hidle] at this
  have hworkers : ∀ v ∈ d₂.workers, (v.pid = w.pid ∧ v.state = .running) ∨
      ∃ u ∈ d.workers, v = g u := by
    intro v hv
    simp only [hd₂,assign,setEventState,updateWorker,workerRef,List.map_map] at hv
    obtain ⟨u,hu,rfl⟩ := List.mem_map.mp hv
    have hgu : (g u).id = u.id ∧ (g u).pid = u.pid := by rcases hg u with h | h <;> simp [h]
    by_cases huw : u.id = w.id
    · have heq : u = w := List.inj_on_of_nodup_map hids hu hw huw
      subst heq
      exact Or.inl (by simp [hgu])
    · exact Or.inr ⟨u,hu,by simp [hgu,huw]⟩
  have hprocs : d₂.procs = d.procs.map fun p => if p.pid = w.pid then { p with inbox := p.inbox+1 } else p := rfl
  have hmore : ∀ p ∈ d.procs, Working p → ∃ q ∈ d₂.procs, q.pid = p.pid ∧ Working q := fun p hp hwork => by
    refine ⟨_,hprocs ▸ List.mem_map_of_mem hp,?_,?_⟩ <;> split_ifs
    · rfl
    · rfl
    · exact working_more hwork
    · exact hwork
  refine ⟨?_,fun p hp ht v hv hvp => ?_,fun v hv => ?_,fun v hv hev => ?_⟩
  · have hpids : d₂.procs.map (·.pid) = d.procs.map (·.pid) := by
      rw [hprocs,List.map_map]
      refine List.map_congr_left fun p _ => ?_
      by_cases hp : p.pid = w.pid <;> simp [hp]
    exact hpids ▸ h.procs
  · obtain ⟨p₀,hp₀,rfl⟩ := List.mem_map.mp (hprocs ▸ hp)
    have hpid : (if p₀.pid = w.pid then { p₀ with inbox := p₀.inbox+1 } else p₀).pid = p₀.pid := by
      split_ifs <;> rfl
    have ht₀ : Told p₀ := by split_ifs at ht <;> exact ht
    rw [hpid] at hvp
    rcases hworkers v hv with ⟨hvw,_⟩ | ⟨u,hu,rfl⟩
    · exact absurd ht₀ (hnot p₀ hp₀ (hvp.symm.trans hvw))
    · rcases hg u with hgu | hgu <;> rw [hgu] at hvp ⊢
      exact h.told p₀ hp₀ ht₀ u hu hvp
  · rcases hworkers v hv with ⟨_,hst⟩ | ⟨u,hu,rfl⟩
    · simp [hst]
    · rcases hg u with hgu | hgu <;> rw [hgu]
      · exact h.states u hu
      · simp
  · rcases hworkers v hv with ⟨hvw,_⟩ | ⟨u,hu,rfl⟩
    · obtain ⟨p,hp,hlive⟩ := List.any_eq_true.mp hl
      simp only [decide_eq_true_eq] at hlive
      obtain ⟨hpid,hlive⟩ := hlive
      refine Or.inr ⟨{ p with inbox := p.inbox+1 },?_,hpid.trans hvw.symm,?_⟩
      · exact hprocs ▸ List.mem_map.mpr ⟨p,hp,if_pos hpid⟩
      · cases hph : p.phase with
        | handling => exact Or.inl rfl
        | sent sigterm =>
          cases sigterm with
          | false => exact Or.inr (Or.inl ⟨Nat.succ_pos _,Or.inl rfl⟩)
          | true => exact absurd (Or.inr hph) (hnot p hp hpid)
        | waiting => exact Or.inr (Or.inl ⟨Nat.succ_pos _,Or.inr rfl⟩)
        | dead st => simp [isDead,hph] at hlive
    · have hgu : (g u).pid = u.pid ∧ (g u).event = u.event := by rcases hg u with h | h <;> simp [h]
      rw [hgu.2] at hev
      rcases h.promised u hu hev with hm | ⟨p,hp,hpu,hwork⟩
      · exact Or.inl (hgu.1 ▸ hm)
      · obtain ⟨q,hq,hqp,hwork⟩ := hmore p hp hwork
        exact Or.inr ⟨q,hq,hqp.trans (hpu.trans hgu.1.symm),hwork⟩

theorem Attended.forked {d : State} (h : Attended d) {pid : ℕ} (hfresh : unreaped d pid = false) (id : ℕ) :
    Attended (forked d id pid) := by
  have hne : ∀ p ∈ d.procs, p.pid ≠ pid := fun p hp hpid => by
    have := List.any_eq_false.mp hfresh p hp
    simp [hpid] at this
  refine ⟨?_,fun p hp ht w hw hwp => ?_,fun w hw => ?_,fun w hw hev => ?_⟩
  · simpa [Daemon.forked,setEventState,List.nodup_append] using ⟨h.procs,hne⟩
  · rcases List.mem_append.mp hp with hp | hp
    · rcases List.mem_append.mp hw with hw | hw
      · exact h.told p hp ht w hw hwp
      · rw [List.mem_singleton.mp hw] at hwp
        exact absurd hwp.symm (hne p hp)
    · rw [List.mem_singleton.mp hp] at ht
      simp [Told] at ht
  · rcases List.mem_append.mp hw with hw | hw
    · exact h.states w hw
    · simp [List.mem_singleton.mp hw]
  · rcases List.mem_append.mp hw with hw | hw
    · refine (h.promised w hw hev).imp_right ?_
      rintro ⟨p,hp,hpw,hwork⟩
      exact ⟨p,List.mem_append_left _ hp,hpw,hwork⟩
    · rw [List.mem_singleton.mp hw]
      exact Or.inr ⟨_,List.mem_append_right _ (List.mem_singleton.mpr rfl),rfl,Or.inl rfl⟩

theorem Attended.started {d d' : State} (h : Attended d) (hd : Workers.Inv d) {id : ℕ} {o : StartOracle}
    (hstep : step d (.start id o) = some d') : Attended d' := by
  obtain ⟨x,_,rfl,⟨_,rfl⟩ | ⟨_,_,rfl⟩ | ⟨_,_,g,hg,hcases⟩⟩ := startEvent_spec hstep
  · exact h
  · exact h.kills kills_id (by simp) rfl rfl
  simp only at hcases
  set d₁ : State := { d with queue := (testBusy d.queue x).2, workers := d.workers.map g }
  have h₁ : Attended d₁ := h.kills hg rfl rfl rfl
  rcases hcases with ⟨w,hw,hidle,hl,rfl⟩ | ⟨_,⟨_,rfl⟩ | ⟨_,rfl⟩ | ⟨pid,_,hfresh,rfl⟩⟩
  · exact h.assigned hg _ hd.ids hw hidle hl x.id
  · exact h₁
  · exact h₁.kills kills_id (by simp [setEventState]) rfl rfl
  · exact h₁.forked hfresh x.id

theorem Attended.killed {d : State} (h : Attended d) : Attended (workerKill d) := by
  refine ⟨?_,fun p _ _ => List.forall_mem_map.mpr fun _ _ _ => rfl,List.forall_mem_map.mpr fun _ _ => by simp,
    List.forall_mem_map.mpr fun w hw hev => (h.promised w hw hev).imp_right ?_⟩
  · have hpids : (workerKill d).procs.map (·.pid) = d.procs.map (·.pid) := by
      simp only [workerKill,List.map_map]
      refine List.map_congr_left fun p _ => ?_
      dsimp only [Function.comp]
      split_ifs <;> rfl
    exact hpids ▸ h.procs
  · rintro ⟨p,hp,hpid,hwork⟩
    refine ⟨_,List.mem_map_of_mem hp,?_,?_⟩ <;> split_ifs
    · exact hpid
    · exact hpid
    · exact hwork
    · exact hwork

theorem Attended.step {d d' : State} {a : Act} (h : Attended d) (hd : Workers.Inv d) (hf : Fresh d a)
    (ha : Attentive d a) (hstep : Daemon.step d a = some d') : Attended d' := by
  cases a with
  | insert dev => cases hstep; exact h.kills kills_id (by simp) rfl rfl
  | start id o => exact h.started hd hstep
  | returned => exact h.returned hd hstep
  | reap pid => exact h.reaped hd hstep
  | expire id => exact h.expired hd hf hstep
  | kill => cases hstep; exact h.killed
  | cleanup => cases hstep; exact h.kills kills_id (by simp) rfl rfl
  | setMax n => cases hstep; exact h.kills kills_id (by simp) rfl rfl
  | receive pid usable =>
    exact h.worker (fun _ _ he => by cases he; exact ha) (fun i hi => by simp at hi) hstep
  | readSigterm pid =>
    exact h.worker (fun _ _ he => by cases he) (fun i hi p hp hpid => ha p hp hpid) hstep
  | pollFails pid =>
    exact h.worker (fun _ _ he => by cases he) (fun i hi p hp hpid => ha p hp hpid) hstep
  | fail _ _ | handled _ _ | leave _ | goOn _ | crash _ _ =>
    exact h.worker (fun _ _ he => by cases he) (fun i hi => by simp at hi) hstep

/-- Only an event that is started or inserted is in a defined state, and all are. -/
theorem step_eventStates {d d' : State} {a : Act} (h : ∀ e ∈ d.queue.events, e.state ≠ .undef)
    (hstep : Daemon.step d a = some d') : ∀ e ∈ d'.queue.events, e.state ≠ .undef := by
  have hupdate : ∀ (q : Queue) (i : ℕ) (f : Event → Event), (∀ e, e.state ≠ .undef → (f e).state ≠ .undef) →
      (∀ e ∈ q.events, e.state ≠ .undef) → ∀ e ∈ (update q i f).events, e.state ≠ .undef := by
    intro q i f hf hq e he
    obtain ⟨l,hl,rfl⟩ := List.mem_map.mp he
    split_ifs
    · exact hf l (hq l hl)
    · exact hq l hl
  rcases Serialization.step_queue hstep with ⟨dev,_,hq⟩ | ⟨e,_,hq⟩ | ⟨p,hq⟩
  · rw [hq]
    intro e he
    rcases List.mem_append.mp he with he | he
    · exact h e he
    · simp [List.mem_singleton.mp he]
  · have hbusy := hupdate d.queue e.id (fun x => { x with delayingSeqnum := (isDevpathBusy e d.queue.events).2 })
      (fun _ hx => hx) h
    rcases hq with hq | hq | ⟨_,hq⟩ <;> rw [hq]
    · exact hbusy
    · exact hupdate _ _ _ (fun _ _ => by simp) hbusy
    · exact hupdate _ _ _ (fun _ _ => by simp) hbusy
  · rw [hq]
    exact fun e he => h e (List.mem_of_mem_filter he)

theorem Live.step {d d' : State} {a : Act} (h : Live d) (ha : Steady d a) (hstep : Daemon.step d a = some d') :
    Live d' := by
  obtain ⟨hseq,hf,hat⟩ := ha
  have hattend := h.attended.step h.workers hf hat hstep
  exact ⟨step_inv h.workers hf hstep,Serialization.step_serial h.queue hseq hstep,hattend.procs,hattend.told,
    hattend.states,step_eventStates h.eventStates hstep,hattend.promised⟩

/-- What has to happen for the queue to drain: events are started, workers handle what they are
sent, their results are read, and those that died are reaped; a worker dies only after
it was killed. Nothing is dropped and nothing is timed out. -/
def Progress (d : State) : Act → Prop
  | .start id o => Fresh d (.start id o)
  | .returned | .reap _ | .handled .. | .goOn _ => True
  | .receive _ usable => usable = true
  | .crash pid _ => ∀ w ∈ d.workers, w.pid = pid → w.state = .killed
  | _ => False

theorem Progress.steady {d : State} {a : Act} (h : Progress d a) : Steady d a := by
  cases a with
  | start id o => exact ⟨trivial,h,trivial⟩
  | receive pid usable => exact ⟨trivial,trivial,h⟩
  | returned | reap _ | handled _ _ | goOn _ | crash _ _ => exact ⟨trivial,trivial,trivial⟩
  | _ => cases h

@[simp] theorem settle_max (d : State) (w : Worker) : (settle d w).childrenMax = d.childrenMax := by
  unfold settle
  split_ifs <;> rfl

theorem release_max (d : State) (e : Option ℕ) : (e.elim d (deleteEvent d)).childrenMax = d.childrenMax := by
  cases e <;> rfl

theorem progress_max {d d' : State} {a : Act} (hd : Workers.Inv d) (ha : Progress d a)
    (hstep : Daemon.step d a = some d') : d'.childrenMax = d.childrenMax := by
  have hworker : ∀ pid b, workerStep d pid b = some d' → d'.childrenMax = d.childrenMax := by
    intro pid b hb
    obtain ⟨p,ms,_,rfl⟩ := workerStep_cases hb
    rfl
  cases a with
  | start id o =>
    obtain ⟨x,_,_,⟨_,rfl⟩ | ⟨_,g,_,rfl | rfl | ⟨_,⟨w,_,_,rfl⟩ | ⟨pid,_,_,rfl⟩⟩⟩⟩ := startEvent_cases hstep
    all_goals rfl
  | returned =>
    obtain ⟨pid,rest,_,⟨_,rfl⟩ | ⟨w,_,rfl,rfl⟩⟩ := returned_cases hd hstep
    · rfl
    · rw [settle_max,release_max]
  | reap pid =>
    obtain ⟨p,status,_,_,hu,rfl⟩ := reap_cases hstep
    rcases reaped_cases hd hu status with ⟨_,heq⟩ | ⟨w,_,rfl,⟨_,heq⟩ | ⟨i,_,_,heq⟩⟩ <;> rw [heq]
    · rfl
    · exact settle_max _ _
    · exact settle_max _ _
  | handled _ _ | goOn _ | receive _ _ | crash _ _ => exact hworker _ _ hstep
  | _ => cases ha

def Drains (d d' : State) : Prop := ∃ bs, Along step Progress d bs ∧ run step d bs = some d'

theorem Drains.refl (d : State) : Drains d d := ⟨[],trivial,rfl⟩

theorem Drains.single {d d' : State} {a : Act} (ha : Progress d a) (h : Daemon.step d a = some d') : Drains d d' :=
  ⟨[a],by simp [Along,h,ha],by simp [run,h]⟩

theorem Drains.trans {d₁ d₂ d₃ : State} (h : Drains d₁ d₂) (h' : Drains d₂ d₃) : Drains d₁ d₃ := by
  obtain ⟨bs,hok,hrun⟩ := h
  obtain ⟨bs',hok',hrun'⟩ := h'
  exact ⟨bs++bs',along_append hrun hok hok',by rw [run_append,hrun,Option.bind_some,hrun']⟩

theorem Drains.live {d d' : State} (h : Drains d d') (hd : Live d) :
    Live d' ∧ d'.childrenMax = d.childrenMax := by
  obtain ⟨bs,hok,hrun⟩ := h
  exact run_invariant (fun u => Live u ∧ u.childrenMax = d.childrenMax)
    (fun u a v hu ha hst => ⟨hu.1.step ha.steady hst,(progress_max hu.1.workers ha hst).trans hu.2⟩)
    ⟨hd,rfl⟩ hok hrun

theorem mem_settle_of_ne {d : State} {w u : Worker} (hu : u ∈ d.workers) (hne : u.id ≠ w.id) :
    u ∈ (settle d w).workers := by
  unfold settle
  split_ifs
  · exact List.mem_map.mpr ⟨u,hu,by simp [hne]⟩
  · exact List.mem_filter.mpr ⟨hu,by simpa using hne⟩

theorem settle_messages (d : State) (w : Worker) : (settle d w).messages = d.messages := by
  unfold settle
  split_ifs <;> rfl

theorem returned_step {d : State} {pid : ℕ} {rest : List ℕ} (h : d.messages = pid::rest) :
    step d .returned = some (workerReturned { d with messages := rest } pid) := by
  simp [Daemon.step,h]

/-- The results are read in the order in which they came, so each is read in the end. -/
theorem drains_message {d : State} (h : Live d) {w : Worker} {i : ℕ} (hw : w ∈ d.workers)
    (hi : w.event = some i) (hm : w.pid ∈ d.messages) :
    ∃ d', Drains d d' ∧ Fewer d d' ∧ Removed d'.queue i := by
  generalize hms : d.messages = ms at hm
  induction ms generalizing d with
  | nil => cases hm
  | cons pid rest ih =>
    have hstep := returned_step hms
    have hone : Drains d _ := Drains.single (a := .returned) trivial hstep
    have hfewer := step_fewer (a := .returned) id hstep
    have hlive := (hone.live h).1
    obtain ⟨pid',rest',hms',hcases⟩ := returned_cases h.workers hstep
    obtain ⟨rfl,rfl⟩ : pid = pid' ∧ rest = rest' := by simpa [hms] using hms'
    have hnext : w ∈ (workerReturned { d with messages := rest } pid).workers →
        (workerReturned { d with messages := rest } pid).messages = rest → w.pid ∈ rest →
        ∃ d', Drains d d' ∧ Fewer d d' ∧ Removed d'.queue i := fun hw' hms' hm' => by
      obtain ⟨d',hd,hf,hr⟩ := ih hlive hw' hms' hm'
      exact ⟨d',hone.trans hd,hfewer.trans hf,hr⟩
    rcases hcases with ⟨hno,heq⟩ | ⟨v,hv,rfl,heq⟩
    · rw [heq] at hnext
      exact hnext hw rfl ((List.mem_cons.mp hm).resolve_left (hno w hw))
    · by_cases hvw : w.pid = v.pid
      · obtain rfl := h.workers.eq_of_pid hw hv hvw
        refine ⟨_,hone,hfewer,?_⟩
        rw [heq,settle_queue,hi]
        exact removed_delete _ i
      · obtain ⟨q,hq,_⟩ := release_eq { d with messages := rest } v.event h.workers.addresses
        rw [heq,hq] at hnext
        refine hnext (mem_settle_of_ne hw ?_) (settle_messages _ _) ((List.mem_cons.mp hm).resolve_left hvw)
        exact fun hid => hvw (by rw [h.workers.eq_of_id hw hv hid])

theorem findProcess_of_mem {d : State} (h : (d.procs.map (·.pid)).Nodup) {p : Process} (hp : p ∈ d.procs) :
    findProcess d p.pid = some p :=
  find?_of_unique hp (by simp) fun q hq hpid => eq_of_pid h hq hp (by simpa using hpid)

theorem workerStep_of_mem {d : State} (h : (d.procs.map (·.pid)).Nodup) {p : Process} (hp : p ∈ d.procs) {a : Act}
    {r : Process × List ℕ} (hr : processStep p a = some r) :
    workerStep d p.pid a = some { setProcess d r.1 with messages := d.messages ++ r.2 } := by
  simp [workerStep,findProcess_of_mem h hp,hr]

/-- After a step of a process the rest of the way drains the event of its worker. -/
theorem drains_after {d d₁ : State} {a : Act} {i : ℕ} (ha : Progress d a) (hb : ¬Begins a)
    (hstep : step d a = some d₁) (h : ∃ d', Drains d₁ d' ∧ Fewer d₁ d' ∧ Removed d'.queue i) :
    ∃ d', Drains d d' ∧ Fewer d d' ∧ Removed d'.queue i := by
  obtain ⟨d',hd,hf,hr⟩ := h
  exact ⟨d',(Drains.single ha hstep).trans hd,(step_fewer hb hstep).trans hf,hr⟩

section Worker

variable {d : State} {w : Worker} {i : ℕ} {p : Process}

theorem drains_handling (h : Live d) (hw : w ∈ d.workers) (hi : w.event = some i) (hp : p ∈ d.procs)
    (hpid : p.pid = w.pid) (hph : p.phase = .handling) :
    ∃ d', Drains d d' ∧ Fewer d d' ∧ Removed d'.queue i := by
  have hstep : step d (.handled p.pid false) = some { setProcess d { p with phase := .sent false } with
      messages := d.messages ++ [p.pid] } :=
    workerStep_of_mem h.procs hp (r := ({ p with phase := .sent false },[p.pid])) (by simp [processStep,hph])
  have hlive := h.step (Progress.steady (a := .handled p.pid false) trivial) hstep
  refine drains_after (a := .handled p.pid false) trivial id hstep (drains_message hlive hw hi ?_)
  simp [hpid]

theorem drains_waiting (h : Live d) (hw : w ∈ d.workers) (hi : w.event = some i) (hp : p ∈ d.procs)
    (hpid : p.pid = w.pid) (hph : p.phase = .waiting) (hpos : 0 < p.inbox) :
    ∃ d', Drains d d' ∧ Fewer d d' ∧ Removed d'.queue i := by
  have hstep : step d (.receive p.pid true) = some { setProcess d { p with phase := .handling, inbox := p.inbox-1 } with
      messages := d.messages ++ [] } :=
    workerStep_of_mem h.procs hp (r := ({ p with phase := .handling, inbox := p.inbox-1 },[]))
      (by simp [processStep,hph,hpos])
  have hlive := h.step (Progress.steady (a := .receive p.pid true) rfl) hstep
  exact drains_after (a := .receive p.pid true) rfl id hstep
    (drains_handling hlive hw hi (setProcess_self hp rfl) hpid rfl)

theorem drains_sent (h : Live d) (hw : w ∈ d.workers) (hi : w.event = some i) (hp : p ∈ d.procs)
    (hpid : p.pid = w.pid) (hph : p.phase = .sent false) (hpos : 0 < p.inbox) :
    ∃ d', Drains d d' ∧ Fewer d d' ∧ Removed d'.queue i := by
  have hstep : step d (.goOn p.pid) = some { setProcess d { p with phase := .waiting } with
      messages := d.messages ++ [] } :=
    workerStep_of_mem h.procs hp (r := ({ p with phase := .waiting },[])) (by simp [processStep,hph])
  have hlive := h.step (Progress.steady (a := .goOn p.pid) trivial) hstep
  exact drains_after (a := .goOn p.pid) trivial id hstep
    (drains_waiting hlive hw hi (setProcess_self hp rfl) hpid rfl hpos)

theorem reap_step (h : Live d) (hp : p ∈ d.procs) {st : Status} (hph : p.phase = .dead st) :
    ∃ d', step d (.reap p.pid) = some d' := by
  have hfind := findProcess_of_mem h.procs hp
  obtain ⟨pid,phase,inbox,sigterm⟩ := p
  simp only at hph
  subst hph
  refine ⟨handleSigchld (withoutProcess d pid) pid st,?_⟩
  simp only [Daemon.step,hfind]
  rfl

theorem drains_dead (h : Live d) (hw : w ∈ d.workers) (hi : w.event = some i) (hp : p ∈ d.procs)
    (hpid : p.pid = w.pid) {st : Status} (hph : p.phase = .dead st) (hst : st ≠ .exited 0) :
    ∃ d', Drains d d' ∧ Fewer d d' ∧ Removed d'.queue i := by
  obtain ⟨d',hstep⟩ := reap_step h hp hph
  refine ⟨d',Drains.single (a := .reap p.pid) trivial hstep,step_fewer (a := .reap p.pid) id hstep,?_⟩
  obtain ⟨q,status,hq,hqph,hu,rfl⟩ := reap_cases hstep
  obtain rfl : p = q := Option.some.inj ((findProcess_of_mem h.procs hp).symm.trans hq)
  obtain rfl : st = status := by simpa [hph] using hqph
  rcases reaped_cases h.workers hu st with ⟨hno,_⟩ | ⟨v,hv,hvp,hcases⟩
  · exact absurd hpid.symm (hno w hw)
  · obtain rfl := h.workers.eq_of_pid hw hv (hpid.symm.trans hvp.symm)
    rcases hcases with ⟨hor,_⟩ | ⟨j,_,hj,heq⟩
    · exact absurd hor (by simp [hst,hi])
    · obtain rfl : i = j := Option.some.inj (hi.symm.trans hj)
      rw [heq,settle_queue]
      exact removed_delete _ i

/-- The event of a worker leaves the queue: its result is read, or its process is reaped. -/
theorem drains_event (h : Live d) (hw : w ∈ d.workers) (hi : w.event = some i) :
    ∃ d', Drains d d' ∧ Fewer d d' ∧ Removed d'.queue i := by
  rcases h.promised w hw (by simp [hi]) with hm | ⟨p,hp,hpid,hph | ⟨hpos,hph | hph⟩ | ⟨st,hph,hst⟩⟩
  · exact drains_message h hw hi hm
  · exact drains_handling h hw hi hp hpid hph
  · exact drains_sent h hw hi hp hpid hph hpos
  · exact drains_waiting h hw hi hp hpid hph hpos
  · exact drains_dead h hw hi hp hpid hph hst

end Worker

theorem drains_running {d : State} (h : Live d) {i : ℕ} (hi : Runs d.queue i) :
    ∃ d', Drains d d' ∧ d'.queue.events.length < d.queue.events.length := by
  obtain ⟨w,hw,hwi⟩ := (h.workers.running i).mp hi
  obtain ⟨d',hd,hf,hr⟩ := drains_event h hw hwi
  obtain ⟨e,he,hid,_⟩ := hi
  exact ⟨d',hd,hf.shorter (hid ▸ List.mem_map_of_mem he) hr⟩

theorem phase_of_isDead {p : Process} (h : isDead p = true) : ∃ st, p.phase = .dead st := by
  unfold isDead at h
  split at h
  · exact ⟨_,‹_›⟩
  · cases h

theorem reap_killed {d : State} (h : Live d) {w : Worker} (hw : w ∈ d.workers) (hnone : w.event = none)
    {p : Process} (hp : p ∈ d.procs) (hpid : p.pid = w.pid) {st : Status} (hph : p.phase = .dead st) :
    ∃ d', step d (.reap p.pid) = some d' ∧ d'.queue = d.queue ∧ d'.workers.length < d.workers.length := by
  obtain ⟨d',hstep⟩ := reap_step h hp hph
  obtain ⟨q,status,_,_,hu,rfl⟩ := reap_cases hstep
  refine ⟨_,hstep,?_⟩
  rcases reaped_cases h.workers hu status with ⟨hno,_⟩ | ⟨v,hv,hvp,hcases⟩
  · exact absurd hpid.symm (hno w hw)
  · obtain rfl := h.workers.eq_of_pid hw hv (hpid.symm.trans hvp.symm)
    rcases hcases with ⟨_,heq⟩ | ⟨j,_,hj,_⟩
    · have hc := (h.workers.counts w hw).1
      rw [hpid] at hu
      have hone : w.refcount = 1 := by simpa [owed,hu,hnone] using hc
      have hlen := h.workers.length_filter hw
      rw [heq,settle_queue]
      refine ⟨rfl,?_⟩
      have hzero : ¬(0 : ℤ) < 1-1 := by decide
      simp only [settle,hone,if_neg hzero,workerCleanup,withoutProcess]
      omega
    · rw [hnone] at hj
      cases hj

/-- A killed worker without an event dies, is reaped and leaves a place for another. -/
theorem drains_killed {d : State} (h : Live d) {w : Worker} (hw : w ∈ d.workers) (hk : w.state = .killed)
    (hnone : w.event = none) :
    ∃ d', Drains d d' ∧ d'.queue = d.queue ∧ d'.workers.length < d.workers.length := by
  obtain ⟨hc,hpos⟩ := h.workers.counts w hw
  have hu : unreaped d w.pid = true := by
    by_contra hno
    simp [owed,hnone,hno] at hc
    omega
  obtain ⟨p,hp,hpid⟩ := List.any_eq_true.mp hu
  have hpid : p.pid = w.pid := by simpa using hpid
  by_cases hdead : isDead p = true
  · obtain ⟨st,hph⟩ := phase_of_isDead hdead
    obtain ⟨d',hstep,hq,hlen⟩ := reap_killed h hw hnone hp hpid hph
    exact ⟨d',Drains.single (a := .reap p.pid) trivial hstep,hq,hlen⟩
  · have hstep : step d (.crash p.pid 9) = some { setProcess d { p with phase := .dead (.signaled 9) } with
        messages := d.messages ++ [] } :=
      workerStep_of_mem h.procs hp (r := ({ p with phase := .dead (.signaled 9) },[])) (by simp [processStep,hdead])
    have hok : Progress d (.crash p.pid 9) := fun v hv hvp => by
      rwa [h.workers.eq_of_pid hv hw (hvp.trans hpid)]
    have hlive := h.step hok.steady hstep
    obtain ⟨d',hreap,hq,hlen⟩ := reap_killed hlive hw hnone (setProcess_self hp rfl) hpid rfl
    exact ⟨d',(Drains.single hok hstep).trans (Drains.single (a := .reap p.pid) trivial hreap),hq,hlen⟩

theorem head_not_busy {q : Queue} (hq : EventQueue.Inv q) {e : Event} {es : List Event} (he : q.events = e::es) :
    (testBusy q e).1 = false := by
  have hm := (hq.memo e (by simp [he])).1
  simp only [testBusy,he,isDevpathBusy]
  rw [if_neg (by omega),if_neg (by omega),if_pos le_rfl]

theorem exists_bound (l : List ℕ) : ∃ n, ∀ m ∈ l, m < n := by
  induction l with
  | nil => exact ⟨0,by simp⟩
  | cons a l ih =>
    obtain ⟨n,hn⟩ := ih
    refine ⟨max n (a+1),fun m hm => ?_⟩
    rcases List.mem_cons.mp hm with rfl | hm
    · omega
    · have := hn m hm
      omega

theorem exists_fresh (d : State) : ∃ pid, unreaped d pid = false ∧ ∀ w ∈ d.workers, w.pid ≠ pid := by
  obtain ⟨n,hn⟩ := exists_bound (d.procs.map (·.pid) ++ d.workers.map (·.pid))
  refine ⟨n,List.any_eq_false.mpr fun p hp => ?_,fun w hw => ?_⟩
  · have := hn p.pid (List.mem_append_left _ (List.mem_map_of_mem hp))
    simp only [decide_eq_true_eq]
    omega
  · exact (hn w.pid (List.mem_append_right _ (List.mem_map_of_mem hw))).ne

/-- The start of an event is not refused when the kernel has a fresh process number. -/
theorem start_total {d : State} {e : Event} (he : find? d.queue e.id = some e) {pid : ℕ}
    (hfresh : unreaped d pid = false) : ∃ d', step d (.start e.id { fork := some pid }) = some d' := by
  simp only [Daemon.step,startEvent,he]
  split_ifs
  · exact ⟨_,rfl⟩
  · exact ⟨_,rfl⟩
  · unfold eventRun
    obtain ⟨g,_,⟨heq,_⟩ | ⟨w,_,_,_,heq⟩⟩ :=
      eventRunLoop_spec { d with queue := (testBusy d.queue e).2 } e.id [] d.workers
    · simp only [heq,Bool.false_eq_true,if_false,workerNew]
      split_ifs with hmax hu
      · exact ⟨_,rfl⟩
      · have hu' : unreaped d pid = true := hu
        simp [hfresh] at hu'
      · exact ⟨_,rfl⟩
    · simp only [heq,if_true]
      exact ⟨_,rfl⟩

theorem find_head {q : Queue} {e : Event} {es : List Event} (he : q.events = e::es) : find? q e.id = some e := by
  simp [find?,he]

/-- What the start of the first event leads to: it runs, or all places are taken and every
worker that could have taken it is killed. -/
theorem head_started {d : State} (h : Live d) {e : Event} {es : List Event} (he : d.queue.events = e::es)
    (hs : e.state = .queued) :
    ∃ d', Drains d d' ∧ d'.queue.events.length = d.queue.events.length ∧
      (Runs d'.queue e.id ∨ d.childrenMax ≤ d'.children ∧ d'.workers.length = d.workers.length ∧
        ∀ w ∈ d'.workers, w.event = none → w.state = .killed) := by
  obtain ⟨pid,hfresh,hnew⟩ := exists_fresh d
  obtain ⟨d',hstep⟩ := start_total (find_head he) hfresh
  have hok : Progress d (.start e.id { fork := some pid }) := fun w hw hp =>
    absurd (Option.some.inj hp).symm (hnew w hw)
  have hlen : d'.queue.events.length = d.queue.events.length := by
    simpa using congrArg List.length (start_ids hstep).2
  refine ⟨d',Drains.single hok hstep,hlen,?_⟩
  have hmem : e ∈ d.queue.events := by simp [he]
  have hstart : ∀ q : Queue, (∃ x ∈ q.events, x.id = e.id) →
      Runs (update q e.id fun x => { x with state := .running }) e.id := fun q hq =>
    (runs_start hq e.id).mpr (Or.inr rfl)
  have hbusy : ∃ x ∈ (testBusy d.queue e).2.events, x.id = e.id := by
    have hids : (testBusy d.queue e).2.events.map (·.id) = d.queue.events.map (·.id) :=
      update_ids _ _ (keeps_memo _)
    exact List.mem_map.mp (hids ▸ List.mem_map_of_mem hmem)
  obtain ⟨x,hx,hid,hcases⟩ := startEvent_spec hstep
  obtain rfl : x = e := h.queue.2.1.eq_of_id hx hmem hid
  rcases hcases with ⟨hns,_⟩ | ⟨_,hb,_⟩ | ⟨_,_,g,hg,hcases⟩
  · exact absurd hs hns
  · rw [head_not_busy h.queue.1 he] at hb
    cases hb
  · simp only at hcases
    rcases hcases with ⟨w,hw,hidle,hl,rfl⟩ | ⟨hall,⟨hfull,rfl⟩ | ⟨hf,_⟩ | ⟨p,_,_,rfl⟩⟩
    · exact Or.inl (hstart _ hbusy)
    · refine Or.inr ⟨hfull,by simp,List.forall_mem_map.mpr fun w hw hnone => ?_⟩
      have hgw : (g w).event = w.event := by rcases hg w with h | h <;> rw [h]
      rw [hgw] at hnone
      cases hst : w.state with
      | undef => exact absurd hst (h.workerStates w hw)
      | running => exact absurd hnone (h.workers.busy w hw hst)
      | idle => exact hall w hw hst
      | killed => rcases hg w with hgw | hgw <;> simp [hgw,hst]
    · cases hf
    · exact Or.inl (hstart _ hbusy)

theorem drains_one {d : State} (h : Live d) (hmax : 0 < d.childrenMax) (hne : d.queue.events ≠ []) :
    ∃ d', Drains d d' ∧ d'.queue.events.length < d.queue.events.length := by
  generalize hn : d.workers.length = n
  induction n using Nat.strong_induction_on generalizing d with
  | _ n ih =>
    obtain ⟨e,es,he⟩ := List.exists_cons_of_ne_nil hne
    have hmem : e ∈ d.queue.events := by simp [he]
    cases hs : e.state with
    | undef => exact absurd hs (h.eventStates e hmem)
    | running => exact drains_running h ⟨e,hmem,rfl,hs⟩
    | queued =>
      obtain ⟨d₁,hd₁,hlen,hruns | ⟨hfull,hworkers,hkilled⟩⟩ := head_started h he hs
      · obtain ⟨d₂,hd₂,hlt⟩ := drains_running (hd₁.live h).1 hruns
        exact ⟨d₂,hd₁.trans hd₂,hlen ▸ hlt⟩
      obtain ⟨hlive,hmax₁⟩ := hd₁.live h
      have hpos : 0 < d₁.workers.length := by
        have := hlive.workers.children
        omega
      obtain ⟨w,hw⟩ := List.exists_mem_of_length_pos hpos
      cases hev : w.event with
      | some i =>
        obtain ⟨d₂,hd₂,hlt⟩ := drains_running hlive ((hlive.workers.running i).mpr ⟨w,hw,hev⟩)
        exact ⟨d₂,hd₁.trans hd₂,hlen ▸ hlt⟩
      | none =>
        obtain ⟨d₂,hd₂,hq,hfewer⟩ := drains_killed hlive hw (hkilled w hw hev) hev
        obtain ⟨hlive₂,hmax₂⟩ := hd₂.live hlive
        have hne₂ : d₂.queue.events ≠ [] := fun hnil => by
          rw [← hq,hnil,he] at hlen
          cases hlen
        obtain ⟨d₃,hd₃,hlt⟩ := ih d₂.workers.length (by omega) hlive₂ (by omega) hne₂ rfl
        exact ⟨d₃,hd₁.trans (hd₂.trans hd₃),by rwa [hq,hlen] at hlt⟩

theorem drains_all {d : State} (h : Live d) (hmax : 0 < d.childrenMax) :
    ∃ d', Drains d d' ∧ d'.queue.events = [] := by
  generalize hn : d.queue.events.length = n
  induction n using Nat.strong_induction_on generalizing d with
  | _ n ih =>
    by_cases hne : d.queue.events = []
    · exact ⟨d,Drains.refl d,hne⟩
    · obtain ⟨d₁,hd₁,hlen⟩ := drains_one h hmax hne
      obtain ⟨hlive,hmax₁⟩ := hd₁.live h
      obtain ⟨d',hd',hempty⟩ := ih _ (hn ▸ hlen) hlive (hmax₁ ▸ hmax) rfl
      exact ⟨d',hd₁.trans hd',hempty⟩

/-- From every state that a run of attentive workers can reach, with room for at least one
worker, the queue can be emptied by starting, handling and reaping alone. -/
theorem queue_drains {d : State} {as : List Act} (hok : Along step Steady {} as) (hrun : run step {} as = some d)
    (hmax : 0 < d.childrenMax) :
    ∃ bs d', Along step Progress d bs ∧ run step d bs = some d' ∧ d'.queue.events = [] := by
  have hlive : Live d := run_invariant Live (fun _ _ _ hs ha h => hs.step ha h) live_init hok hrun
  obtain ⟨d',⟨bs,hbs,hrun'⟩,hempty⟩ := drains_all hlive hmax
  exact ⟨bs,d',hbs,hrun',hempty⟩

/-- A disk and its partition with one worker, which is killed while it handles the disk. -/
def killedRun : List Act :=
  [.setMax 1, .insert { seqnum := 1, devpath := str "/block/sda" },
   .insert { seqnum := 2, devpath := str "/block/sda/sda1" }, .start 0 { fork := some 100 }, .kill]

theorem queue_drains_killed :
    ∃ d, run step {} killedRun = some d ∧ d.queue.events.length = 2 ∧
      ∃ bs d', Along step Progress d bs ∧ run step d bs = some d' ∧ d'.queue.events = [] :=
  ⟨_,rfl,rfl,queue_drains (by decide) (show run step {} killedRun = some _ from rfl) (by decide)⟩

end Drain
end Udev
