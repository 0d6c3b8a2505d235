import Udev.Ownership

/-! What a step does to the lists of events, workers and processes. The record of a
worker keeps its address and its process for life; only an insertion makes an
event, and only a start makes a worker and the process that belongs to it. -/
namespace Udev
namespace WorkerLists

open Runs EventQueue Daemon Workers Ownership

def Begins : Act → Prop
  | .insert _ | .start .. => True
  | _ => False

/-- The identity of a worker, which no update changes. -/
def ident (w : Worker) : ℕ × ℕ := (w.id,w.pid)

theorem updateWorker_idents (d : State) (id : ℕ) {f : Worker → Worker} (hf : ∀ w, ident (f w) = ident w) :
    (updateWorker d id f).workers.map ident = d.workers.map ident := by
  simp only [updateWorker,List.map_map]
  refine List.map_congr_left fun w _ => ?_
  by_cases h : w.id = id <;> simp [h,hf]

theorem workerUnref_idents (d : State) (id : ℕ) :
    ((workerUnref d id).workers.map ident).Sublist (d.workers.map ident) := by
  unfold workerUnref
  split
  · exact List.Sublist.refl _
  · split_ifs
    · rw [updateWorker_idents]
      exact fun _ => rfl
    · exact List.filter_sublist.map _

theorem workerReturned_idents (d : State) (pid : ℕ) :
    ((workerReturned d pid).workers.map ident).Sublist (d.workers.map ident) := by
  unfold workerReturned
  split
  · exact List.Sublist.refl _
  · rename_i w _
    refine (workerUnref_idents _ _).trans ?_
    rw [updateWorker_idents]
    · cases w.event <;> exact List.Sublist.refl _
    · exact fun _ => rfl

theorem handleSigchld_idents (d : State) (pid : ℕ) (status : Status) :
    ((handleSigchld d pid status).workers.map ident).Sublist (d.workers.map ident) := by
  unfold handleSigchld
  split
  · exact List.Sublist.refl _
  · rename_i w _
    refine (workerUnref_idents _ _).trans ?_
    split_ifs
    · exact List.Sublist.refl _
    · cases w.event with
      | none => exact List.Sublist.refl _
      | some id => exact workerUnref_idents (deleteEvent d id) w.id

theorem expire_idents (d : State) (w : Worker) (id : ℕ) :
    ((expire d w id).workers.map ident).Sublist (d.workers.map ident) := by
  have hkill : (updateWorker d w.id fun w => { w with state := .killed }).workers.map ident =
      d.workers.map ident := updateWorker_idents d w.id fun _ => rfl
  simp only [expire]
  rw [updateWorker_idents]
  · exact hkill ▸ workerUnref_idents _ w.id
  · exact fun _ => rfl

/-- The events and the workers of the second state are among those of the first. -/
def Fewer (d d' : State) : Prop :=
  d'.queue.events.Sublist d.queue.events ∧ (d'.workers.map ident).Sublist (d.workers.map ident)

theorem Fewer.refl (d : State) : Fewer d d := ⟨List.Sublist.refl _,List.Sublist.refl _⟩

theorem Fewer.trans {d₁ d₂ d₃ : State} (h : Fewer d₁ d₂) (h' : Fewer d₂ d₃) : Fewer d₁ d₃ :=
  ⟨h'.1.trans h.1,h'.2.trans h.2⟩

theorem step_fewer {d d' : State} {a : Act} (ha : ¬Begins a) (h : step d a = some d') :
    Fewer d d' := by
  have hworker : ∀ pid b, workerStep d pid b = some d' → Fewer d d' := by
    intro pid b hb
    obtain ⟨p,ms,_,rfl⟩ := workerStep_cases hb
    exact Fewer.refl d
  have hfilter : ∀ {q : Queue}, (∃ p, q = { d.queue with events := d.queue.events.filter p }) →
      q.events.Sublist d.queue.events := by
    rintro q ⟨p,rfl⟩
    exact List.filter_sublist
  cases a with
  | insert dev => exact absurd trivial ha
  | start id o => exact absurd trivial ha
  | returned =>
    simp only [step] at h
    split at h
    · cases h
    · rename_i pid rest _
      cases h
      exact ⟨hfilter (Serialization.workerReturned_queue { d with messages := rest } pid),
        workerReturned_idents { d with messages := rest } pid⟩
  | reap pid =>
    simp only [step] at h
    split at h
    · rename_i p status _ _ _
      cases h
      exact ⟨hfilter (Serialization.handleSigchld_queue (withoutProcess d pid) pid status),
        handleSigchld_idents (withoutProcess d pid) pid status⟩
    · cases h
  | expire id =>
    obtain ⟨w,_,_,_,i,_,rfl⟩ := expire_cases h
    exact ⟨hfilter ⟨(·.id ≠ i),by simp [expire,touch,deleteEvent,eventQueueDelete]⟩,expire_idents d w i⟩
  | kill =>
    cases h
    refine ⟨List.Sublist.refl _,?_⟩
    simp only [workerKill,List.map_map]
    exact List.Sublist.refl _
  | cleanup => cases h; exact ⟨List.filter_sublist,List.Sublist.refl _⟩
  | setMax n => cases h; exact ⟨List.Sublist.refl _,List.Sublist.refl _⟩
  | fail _ _ | handled _ _ | leave _ | goOn _ | receive _ _ | readSigterm _ | pollFails _ | crash _ _ =>
    exact hworker _ _ h

theorem run_fewer {d d' : State} {bs : List Act} (hb : ∀ b ∈ bs, ¬Begins b)
    (h : run step d bs = some d') : Fewer d d' :=
  run_invariant (Fewer d) (fun _ _ _ hs hb h => hs.trans (step_fewer hb h)) (Fewer.refl d)
    (along_of_forall (fun _ b => ¬Begins b) (fun b hmem _ => hb b hmem) d) h

@[simp] theorem workerUnref_procs (d : State) (id : ℕ) : (workerUnref d id).procs = d.procs := by
  unfold workerUnref
  split
  · rfl
  · split_ifs <;> rfl

theorem release_procs (d : State) (e : Option ℕ) : (e.elim d (deleteEvent d)).procs = d.procs := by
  cases e <;> rfl

theorem workerReturned_procs (d : State) (pid : ℕ) : (workerReturned d pid).procs = d.procs := by
  unfold workerReturned
  split
  · rfl
  · simp [updateWorker,release_procs]

theorem handleSigchld_procs (d : State) (pid : ℕ) (status : Status) :
    (handleSigchld d pid status).procs = d.procs := by
  unfold handleSigchld
  split
  · rfl
  · rename_i w _
    rw [workerUnref_procs]
    split_ifs
    · rfl
    · cases w.event <;> simp [deleteEvent]

theorem step_procs {d d' : State} {a : Act} (ha : ¬Begins a) (h : step d a = some d') :
    (d'.procs.map (·.pid)).Sublist (d.procs.map (·.pid)) := by
  have hworker : ∀ pid b, workerStep d pid b = some d' → (d'.procs.map (·.pid)).Sublist (d.procs.map (·.pid)) := by
    intro pid b hb
    obtain ⟨p,ms,_,rfl⟩ := workerStep_cases hb
    have hpids : (setProcess d p).procs.map (·.pid) = d.procs.map (·.pid) := by
      simp only [setProcess,List.map_map]
      refine List.map_congr_left fun v _ => ?_
      by_cases hv : v.pid = p.pid <;> simp [hv]
    exact hpids ▸ List.Sublist.refl _
  cases a with
  | insert dev => exact absurd trivial ha
  | start id o => exact absurd trivial ha
  | returned =>
    simp only [step] at h
    split at h
    · cases h
    · cases h
      rw [workerReturned_procs]
  | reap pid =>
    obtain ⟨p,status,_,_,_,rfl⟩ := reap_cases h
    rw [handleSigchld_procs]
    exact List.filter_sublist.map _
  | expire id =>
    obtain ⟨w,_,_,_,i,_,rfl⟩ := expire_cases h
    have hprocs : (expire d w i).procs = d.procs := by simp [expire,touch,deleteEvent,updateWorker]
    rw [hprocs]
  | kill =>
    cases h
    have hpids : (workerKill d).procs.map (·.pid) = d.procs.map (·.pid) := by
      simp only [workerKill,List.map_map]
      refine List.map_congr_left fun p _ => ?_
      dsimp only [Function.comp]
      split_ifs <;> rfl
    rw [hpids]
  | cleanup => cases h; exact List.Sublist.refl _
  | setMax n => cases h; exact List.Sublist.refl _
  | fail _ _ | handled _ _ | leave _ | goOn _ | receive _ _ | readSigterm _ | pollFails _ | crash _ _ =>
    exact hworker _ _ h

theorem Kills.ident {g : Worker → Worker} (hg : Kills g) (w : Worker) : ident (g w) = ident w := by
  rcases hg w with h | h <;> rw [h]
  rfl

theorem start_idents {d d' : State} {id : ℕ} {o : StartOracle} (h : startEvent d id o = some d') :
    ∃ new, d'.workers.map ident = d.workers.map ident ++ new ∧
      d'.procs.map (·.pid) = d.procs.map (·.pid) ++ new.map Prod.snd := by
  obtain ⟨x,_,rfl,⟨_,rfl⟩ | ⟨_,g,hg,hcases⟩⟩ := startEvent_cases h
  · exact ⟨[],by simp,by simp⟩
  have hkill : (d.workers.map g).map ident = d.workers.map ident := by
    rw [List.map_map]
    exact List.map_congr_left fun w _ => Kills.ident hg w
  rcases hcases with rfl | rfl | ⟨_,⟨w,_,_,rfl⟩ | ⟨pid,_,_,rfl⟩⟩
  · exact ⟨[],by simpa using hkill,by simp⟩
  · exact ⟨[],by simpa [setEventState] using hkill,by simp [setEventState]⟩
  · refine ⟨[],?_,?_⟩
    · rw [List.append_nil,← hkill]
      simp only [assign,setEventState]
      rw [updateWorker_idents,workerRef,updateWorker_idents] <;> exact fun _ => rfl
    · simp only [assign,setEventState,updateWorker,workerRef,List.map_map,List.map_nil,List.append_nil]
      refine List.map_congr_left fun p _ => ?_
      by_cases hp : p.pid = w.pid <;> simp [hp]
  · exact ⟨[(d.nextWorker,pid)],by simp [forked,setEventState,← hkill,ident],by simp [forked,setEventState]⟩

theorem Fewer.shorter {d d' : State} (h : Fewer d d') {i : ℕ} (hi : i ∈ d.queue.events.map (·.id))
    (hr : Removed d'.queue i) : d'.queue.events.length < d.queue.events.length := by
  refine lt_of_le_of_ne h.1.length_le fun heq => hr ?_
  rw [h.1.eq_of_length heq]
  exact hi

end WorkerLists
end Udev
