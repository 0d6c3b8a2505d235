import Udev.Daemon

/-! An event runs only when no earlier event of the queue conflicts with it,
whatever the order of insertions, starts, results, deaths and timeouts. -/
namespace Udev
namespace Serialization

open Runs EventQueue Daemon

@[simp] theorem updateWorker_queue (d : State) (id : ℕ) (f : Worker → Worker) :
    (updateWorker d id f).queue = d.queue := rfl

@[simp] theorem workerUnref_queue (d : State) (id : ℕ) : (workerUnref d id).queue = d.queue := by
  unfold workerUnref
  split
  · rfl
  · split_ifs <;> rfl

theorem release_queue (d : State) (e : Option ℕ) :
    ∃ p, (e.elim d (deleteEvent d)).queue = { d.queue with events := d.queue.events.filter p } := by
  cases e with
  | none => exact ⟨fun _ => true,by simp⟩
  | some id => exact ⟨_,rfl⟩

theorem workerReturned_queue (d : State) (pid : ℕ) :
    ∃ p, (workerReturned d pid).queue = { d.queue with events := d.queue.events.filter p } := by
  unfold workerReturned
  split
  · exact ⟨fun _ => true,by simp⟩
  · rename_i w _
    simpa using release_queue d w.event

theorem handleSigchld_queue (d : State) (pid : ℕ) (status : Status) :
    ∃ p, (handleSigchld d pid status).queue = { d.queue with events := d.queue.events.filter p } := by
  unfold handleSigchld
  split
  · exact ⟨fun _ => true,by simp⟩
  · rename_i w _
    by_cases hs : status = .exited 0
    · exact ⟨fun _ => true,by simp [hs]⟩
    · cases he : w.event with
      | none => exact ⟨fun _ => true,by simp [hs]⟩
      | some id => exact ⟨(·.id ≠ id),by simp [hs,deleteEvent,eventQueueDelete]⟩

theorem step_queue {d d' : State} {a : Act} (h : step d a = some d') :
    (∃ dev, a = .insert dev ∧ d'.queue = eventQueueInsert d.queue dev) ∨
    (∃ e ∈ d.queue.events, d'.queue = (testBusy d.queue e).2 ∨
      d'.queue = update (testBusy d.queue e).2 e.id (fun e => { e with state := .queued }) ∨
      ((testBusy d.queue e).1 = false ∧
        d'.queue = update (testBusy d.queue e).2 e.id (fun e => { e with state := .running }))) ∨
    ∃ p, d'.queue = { d.queue with events := d.queue.events.filter p } := by
  have hsame : d'.queue = d.queue →
      ∃ p, d'.queue = { d.queue with events := d.queue.events.filter p } :=
    fun hd => ⟨fun _ => true,by simp [hd]⟩
  have hworker : ∀ pid b, workerStep d pid b = some d' → d'.queue = d.queue := by
    intro pid b hb
    obtain ⟨p,ms,_,rfl⟩ := workerStep_cases hb
    rfl
  cases a with
  | insert dev => cases h; exact Or.inl ⟨dev,rfl,rfl⟩
  | start id o =>
    obtain ⟨e,he,rfl,⟨_,rfl⟩ | ⟨_,g,_,rfl | rfl | ⟨hfree,⟨w,_,_,rfl⟩ | ⟨pid,_,_,rfl⟩⟩⟩⟩ := startEvent_cases h
    · exact Or.inr (Or.inr (hsame rfl))
    · exact Or.inr (Or.inl ⟨e,he,Or.inl rfl⟩)
    · exact Or.inr (Or.inl ⟨e,he,Or.inr (Or.inl rfl)⟩)
    · exact Or.inr (Or.inl ⟨e,he,Or.inr (Or.inr ⟨hfree,rfl⟩)⟩)
    · exact Or.inr (Or.inl ⟨e,he,Or.inr (Or.inr ⟨hfree,rfl⟩)⟩)
  | returned =>
    simp only [step] at h
    split at h
    · cases h
    · cases h
      exact Or.inr (Or.inr (workerReturned_queue _ _))
  | reap pid =>
    simp only [step] at h
    split at h
    · cases h
      exact Or.inr (Or.inr (handleSigchld_queue _ _ _))
    · cases h
  | expire id =>
    simp only [step] at h
    split at h
    · split_ifs at h
      obtain ⟨e,_,rfl⟩ := Option.map_eq_some_iff.mp h
      exact Or.inr (Or.inr ⟨(·.id ≠ e),by simp [expire,touch,deleteEvent,eventQueueDelete]⟩)
    · cases h
  | kill => cases h; exact Or.inr (Or.inr (hsame rfl))
  | cleanup => cases h; exact Or.inr (Or.inr ⟨_,rfl⟩)
  | setMax n => cases h; exact Or.inr (Or.inr (hsame rfl))
  | fail pid rc => exact Or.inr (Or.inr (hsame (hworker _ _ h)))
  | handled pid sigterm => exact Or.inr (Or.inr (hsame (hworker _ _ h)))
  | leave pid => exact Or.inr (Or.inr (hsame (hworker _ _ h)))
  | goOn pid => exact Or.inr (Or.inr (hsame (hworker _ _ h)))
  | receive pid usable => exact Or.inr (Or.inr (hsame (hworker _ _ h)))
  | readSigterm pid => exact Or.inr (Or.inr (hsame (hworker _ _ h)))
  | pollFails pid => exact Or.inr (Or.inr (hsame (hworker _ _ h)))
  | crash pid sig => exact Or.inr (Or.inr (hsame (hworker _ _ h)))

def Serial (q : Queue) : Prop :=
  ∀ e ∈ q.events, e.state = .running → ∀ l ∈ q.events, l.seqnum < e.seqnum → conflictTest e l = none

theorem Serial.filter {q : Queue} (h : Serial q) (p : Event → Bool) :
    Serial { q with events := q.events.filter p } :=
  fun e he hr l hl => h e (List.mem_of_mem_filter he) hr l (List.mem_of_mem_filter hl)

theorem Serial.insert {q : Queue} {dev : Device} (h : Serial q) (hq : EventQueue.Inv q)
    (hd : q.lastSeqnum < dev.seqnum) : Serial (eventQueueInsert q dev) := by
  intro e he hr l hl hlt
  rcases List.mem_append.mp he with he | he
  · rcases List.mem_append.mp hl with hl | hl
    · exact h e he hr l hl hlt
    · simp only [List.mem_singleton] at hl
      have hb := hq.bounded e he
      simp only [hl] at hlt
      omega
  · simp only [List.mem_singleton] at he
    simp [he] at hr

/-- An update that starts no event, or only one that nothing blocks, keeps the order. -/
theorem Serial.update {q : Queue} {id : ℕ} {f : Event → Event} (h : Serial q) (hf : Keeps f)
    (hstart : ∀ e ∈ q.events, e.id = id → (f e).state = .running →
      ∀ l ∈ q.events, l.seqnum < e.seqnum → conflictTest e l = none) : Serial (update q id f) := by
  have hg := hf.ite id
  intro e he hr l hl hlt
  obtain ⟨e₀,he₀,rfl⟩ := List.mem_map.mp he
  obtain ⟨l₀,hl₀,rfl⟩ := List.mem_map.mp hl
  rw [hg.seqnum,hg.seqnum] at hlt
  rw [hg.conflictTest,hg.conflictTest_left]
  split_ifs at hr with hid
  · exact hstart e₀ he₀ hid hr l₀ hl₀ hlt
  · exact h e₀ he₀ hr l₀ hl₀ hlt

theorem free_of_testBusy {q : Queue} (hq : EventQueue.Inv q) {e : Event} (he : e ∈ q.events)
    (hfree : (testBusy q e).1 = false) {l : Event} (hl : l ∈ q.events) (hlt : l.seqnum < e.seqnum) :
    conflictTest e l = none := by
  have hscan : fullScan e q.events = false := by
    rw [← isDevpathBusy_fullScan hq.sorted (hq.memo e he)]
    exact hfree
  simpa [hlt] using List.any_eq_false.mp hscan l hl

theorem Serial.testBusy {q : Queue} (h : Serial q) (e : Event) : Serial (testBusy q e).2 :=
  h.update (keeps_memo _) fun x hx _ hr l hl hlt => h x hx hr l hl hlt

/-- SEQNUMs are positive and increase from one insertion to the next. -/
def SeqnumsIncrease (d : State) : Act → Prop
  | .insert dev => d.queue.lastSeqnum < dev.seqnum
  | _ => True

instance (d : State) (a : Act) : Decidable (SeqnumsIncrease d a) :=
  match a with
  | .insert dev => inferInstanceAs (Decidable (d.queue.lastSeqnum < dev.seqnum))
  | .start .. | .returned | .reap _ | .expire _ | .kill | .cleanup | .setMax _ | .fail ..
  | .handled .. | .leave _ | .goOn _ | .receive .. | .readSigterm _ | .pollFails _ | .crash .. =>
    isTrue trivial

theorem step_serial {d d' : State} {a : Act}
    (hd : EventQueue.Inv d.queue ∧ Addresses d.queue ∧ Serial d.queue) (ha : SeqnumsIncrease d a)
    (h : step d a = some d') :
    EventQueue.Inv d'.queue ∧ Addresses d'.queue ∧ Serial d'.queue := by
  obtain ⟨hi,hadr,hs⟩ := hd
  rcases step_queue h with ⟨dev,rfl,hq⟩ | ⟨e,he,hq⟩ | ⟨p,hq⟩
  · rw [hq]
    exact ⟨inv_insert hi ha,hadr.insert dev,hs.insert hi ha⟩
  · have hi' := inv_testBusy hi hadr he
    have hadr' : Addresses (testBusy d.queue e).2 := hadr.update (keeps_memo _) _
    have hs' := hs.testBusy e
    rcases hq with hq | hq | ⟨hfree,hq⟩ <;> rw [hq]
    · exact ⟨hi',hadr',hs'⟩
    · exact ⟨inv_updateState hi' .queued,hadr'.update (keeps_state _) _,
        hs'.update (keeps_state _) fun _ _ _ hr => by simp at hr⟩
    · refine ⟨inv_updateState hi' .running,hadr'.update (keeps_state _) _,
        hs'.update (keeps_state _) fun x hx hid _ l hl hlt => ?_⟩
      obtain ⟨x₀,hx₀,rfl⟩ := List.mem_map.mp hx
      obtain ⟨l₀,hl₀,rfl⟩ := List.mem_map.mp hl
      have hg := (keeps_memo (isDevpathBusy e d.queue.events).2).ite e.id
      rw [hg.id] at hid
      rw [hg.seqnum,hg.seqnum] at hlt
      rw [hg.conflictTest,hg.conflictTest_left]
      have hxe := hadr.eq_of_id hx₀ he hid
      subst hxe
      exact free_of_testBusy hi he hfree hl₀ hlt
  · rw [hq]
    exact ⟨inv_filter hi p,hadr.filter p,hs.filter p⟩

/-- Event serialisation: no running event has an earlier conflicting event beside it. -/
theorem running_event_has_no_earlier_conflict {d : State} (as : List Act)
    (hseq : Along step SeqnumsIncrease {} as) (hrun : run step {} as = some d)
    {e l : Event} (he : e ∈ d.queue.events) (hl : l ∈ d.queue.events) (hr : e.state = .running)
    (hlt : l.seqnum < e.seqnum) : ¬Conflicts e l := by
  have hinv : EventQueue.Inv d.queue ∧ Addresses d.queue ∧ Serial d.queue :=
    run_invariant (fun d => EventQueue.Inv d.queue ∧ Addresses d.queue ∧ Serial d.queue)
      (fun _ _ _ hs ha h => step_serial hs ha h)
      ⟨inv_empty,Addresses.empty,by simp [Serial]⟩ hseq hrun
  rw [← conflictTest_isSome,hinv.2.2 e he hr l hl hlt]
  simp

/-- Two disks and a partition: the disks run side by side, the partition waits. -/
def diskRun : List Act :=
  [.insert { seqnum := 1, devpath := str "/block/sda" },
   .insert { seqnum := 2, devpath := str "/block/sdb" },
   .insert { seqnum := 3, devpath := str "/block/sda/sda1" },
   .start 0 { fork := some 100 }, .start 1 { fork := some 101 }, .start 2 { fork := some 102 }]

theorem running_event_has_no_earlier_conflict_disks :
    ∃ d e l, run step {} diskRun = some d ∧ e ∈ d.queue.events ∧ l ∈ d.queue.events ∧
      e.state = .running ∧ l.seqnum < e.seqnum ∧ ¬Conflicts e l := by
  refine ⟨_,_,_,rfl,List.mem_cons_of_mem _ (List.mem_cons_self ..),List.mem_cons_self ..,rfl,
    by decide,?_⟩
  exact running_event_has_no_earlier_conflict diskRun (by decide) rfl
    (List.mem_cons_of_mem _ (List.mem_cons_self ..)) (List.mem_cons_self ..) rfl (by decide)

end Serialization
end Udev
