import Udev.Serialization
import Udev.Workers

/-! What the invariant of the workers gives for whole runs: every running event
has one owner, and every worker has the references it is owed. The exit of a
worker with status 0 while it owns an event, a result that comes after the
timeout and a timeout after the exit are what breaks this. -/
namespace Udev
namespace Ownership

open Runs EventQueue Daemon Workers

def Freed (d : State) (w : Worker) : Prop := w.id ∉ d.workers.map (·.id)

/-- The event at the address is not in the queue. -/
def Removed (q : Queue) (i : ℕ) : Prop := i ∉ q.events.map (·.id)

instance (d : State) (w : Worker) : Decidable (Freed d w) :=
  inferInstanceAs (Decidable (w.id ∉ d.workers.map (·.id)))

theorem settle_queue (d : State) (w : Worker) : (settle d w).queue = d.queue := by
  unfold settle
  split_ifs <;> rfl

theorem unreaped_settle (d : State) (w : Worker) (pid : ℕ) :
    unreaped (settle d w) pid = unreaped d pid := by
  unfold settle
  split_ifs <;> rfl

theorem mem_settle {d : State} {w u : Worker} (hu : u ∈ (settle d w).workers) :
    u = w ∧ 0 < w.refcount ∨ u ∈ d.workers ∧ u.id ≠ w.id := by
  unfold settle at hu
  split_ifs at hu with hpos
  · obtain ⟨v,hv,rfl⟩ := List.mem_map.mp hu
    split_ifs with h
    · exact Or.inl ⟨rfl,hpos⟩
    · exact Or.inr ⟨hv,h⟩
  · exact Or.inr (by simpa [workerCleanup] using hu)

theorem updateWorker_ids (d : State) (id : ℕ) {f : Worker → Worker} (hf : ∀ w, w.id = id → (f w).id = id) :
    (updateWorker d id f).workers.map (·.id) = d.workers.map (·.id) := by
  simp only [updateWorker,List.map_map]
  refine List.map_congr_left fun w _ => ?_
  by_cases h : w.id = id <;> simp [h,hf]

theorem update_ids (q : Queue) (j : ℕ) {f : Event → Event} (hf : Keeps f) :
    (update q j f).events.map (·.id) = q.events.map (·.id) := by
  simp [EventQueue.update,List.map_map,Function.comp_def,(hf.ite j).id]

theorem freed_settle {d : State} {w v : Worker} (hv : v ∈ d.workers) (h : Freed (settle d w) v) :
    v.id = w.id ∧ w.refcount ≤ 0 := by
  have hmem : v.id ∈ d.workers.map (·.id) := List.mem_map_of_mem hv
  unfold Freed settle at h
  split_ifs at h with hpos
  · rw [updateWorker_ids d w.id fun _ _ => rfl] at h
    exact absurd hmem h
  · refine ⟨by_contra fun hne => h ?_,by omega⟩
    exact List.mem_map_of_mem (List.mem_filter.mpr ⟨hv,by simpa using hne⟩)

theorem Kills.map_id {g : Worker → Worker} (hg : Kills g) (ws : List Worker) :
    (ws.map g).map (·.id) = ws.map (·.id) := by
  rw [List.map_map]
  refine List.map_congr_left fun w _ => ?_
  rcases hg w with h | h <;> simp [h]

theorem start_ids {d d' : State} {id : ℕ} {o : StartOracle} (h : startEvent d id o = some d') :
    (∃ ids, d'.workers.map (·.id) = d.workers.map (·.id) ++ ids) ∧
      d'.queue.events.map (·.id) = d.queue.events.map (·.id) := by
  obtain ⟨x,_,rfl,⟨_,rfl⟩ | ⟨_,g,hg,hcases⟩⟩ := startEvent_cases h
  · exact ⟨⟨[],by simp⟩,rfl⟩
  have hbusy : (testBusy d.queue x).2.events.map (·.id) = d.queue.events.map (·.id) :=
    update_ids _ _ (keeps_memo _)
  have hstate : ∀ st, (update (testBusy d.queue x).2 x.id fun e => { e with state := st }).events.map
      (·.id) = d.queue.events.map (·.id) := fun st => (update_ids _ _ (keeps_state _)).trans hbusy
  have hkill := Kills.map_id hg d.workers
  rcases hcases with rfl | rfl | ⟨_,⟨w,_,_,rfl⟩ | ⟨pid,_,_,rfl⟩⟩
  · exact ⟨⟨[],by simpa using hkill⟩,hbusy⟩
  · exact ⟨⟨[],by simpa [setEventState] using hkill⟩,hstate .queued⟩
  · refine ⟨⟨[],?_⟩,hstate .running⟩
    rw [List.append_nil,← hkill]
    refine (updateWorker_ids (workerRef _ w.id) w.id
      (f := fun w => { w with event := some x.id, state := .running }) fun _ h => h).trans ?_
    exact updateWorker_ids _ w.id (f := fun w => { w with refcount := w.refcount+1 }) fun _ h => h
  · refine ⟨⟨[d.nextWorker],?_⟩,hstate .running⟩
    rw [← hkill]
    simp [forked,setEventState]

theorem removed_delete (q : Queue) (i : ℕ) : Removed (eventQueueDelete q i) i := by
  simp [Removed,eventQueueDelete]

/-- No result comes from a worker that has no event any more (a timeout took it), no
timeout hits a worker whose process was reaped, and no new process gets the number of
a reaped one whose worker is still in the list. -/
def Timely (d : State) : Act → Prop
  | .returned => ∀ w ∈ d.workers, d.messages.head? = some w.pid → w.event ≠ none
  | .expire id => ∀ w ∈ d.workers, w.id = id → unreaped d w.pid = true
  | .start _ o => ∀ w ∈ d.workers, o.fork = some w.pid → unreaped d w.pid = true
  | _ => True

instance (d : State) (a : Act) : Decidable (Timely d a) :=
  match a with
  | .returned => inferInstanceAs
    (Decidable (∀ w ∈ d.workers, d.messages.head? = some w.pid → w.event ≠ none))
  | .expire id => inferInstanceAs (Decidable (∀ w ∈ d.workers, w.id = id → unreaped d w.pid = true))
  | .start _ o => inferInstanceAs
    (Decidable (∀ w ∈ d.workers, o.fork = some w.pid → unreaped d w.pid = true))
  | .insert _ | .reap _ | .kill | .cleanup | .setMax _ | .fail .. | .handled .. | .leave _ | .goOn _
  | .receive .. | .readSigterm _ | .pollFails _ | .crash .. => isTrue trivial

theorem Timely.fresh {d : State} {a : Act} (h : Timely d a) : Fresh d a := by
  cases a <;> first | exact h | trivial

theorem not_freed_of_ids {d d' : State} (ids : List ℕ)
    (h : d'.workers.map (·.id) = d.workers.map (·.id) ++ ids) {w : Worker} (hw : w ∈ d.workers) :
    ¬Freed d' w :=
  fun hf => hf (h ▸ List.mem_append_left _ (List.mem_map_of_mem hw))

theorem not_freed_of_eq {d d' : State} (h : d'.workers.map (·.id) = d.workers.map (·.id)) {w : Worker}
    (hw : w ∈ d.workers) : ¬Freed d' w :=
  not_freed_of_ids [] (by simpa using h) hw

/-- A worker is freed only when its process is reaped and its event is gone. -/
theorem step_frees {d d' : State} {a : Act} (h : Workers.Inv d) (ha : Timely d a)
    (hstep : step d a = some d') {w : Worker} (hw : w ∈ d.workers) (hf : Freed d' w) :
    unreaped d' w.pid = false ∧ ∀ i, w.event = some i → Removed d'.queue i := by
  have hworker : ∀ pid b, workerStep d pid b = some d' → ¬Freed d' w := by
    intro pid b hb
    obtain ⟨p,ms,_,rfl⟩ := workerStep_cases hb
    exact not_freed_of_eq rfl hw
  cases a with
  | returned =>
    obtain ⟨pid,rest,hm,⟨_,rfl⟩ | ⟨v,hv,rfl,rfl⟩⟩ := returned_cases h hstep
    · exact absurd hf (not_freed_of_eq rfl hw)
    have hsome : v.event ≠ none := ha v hv (by simp [hm])
    obtain ⟨i,hi⟩ := Option.ne_none_iff_exists'.mp hsome
    rw [hi,Option.elim_some] at hf ⊢
    obtain ⟨hid,hle⟩ := freed_settle (d := deleteEvent { d with messages := rest } i) hw hf
    have hwv : w = v := h.eq_of_id hw hv hid
    subst hwv
    rw [unreaped_settle,settle_queue]
    refine ⟨?_,fun j hj => ?_⟩
    · show unreaped d w.pid = false
      by_contra hu
      have := h.refcount_two hw (by simpa using hu) hi
      simp only [returnedWorker] at hle
      omega
    · rw [Option.some.inj (hj.symm.trans hi)]
      exact removed_delete d.queue i
  | reap pid =>
    obtain ⟨p,status,_,_,hu,rfl⟩ := reap_cases hstep
    have hu₀ := unreaped_withoutProcess d pid
    rcases reaped_cases h hu status with ⟨_,heq⟩ | ⟨v,hv,rfl,⟨_,heq⟩ | ⟨i,_,hi,heq⟩⟩
    all_goals rw [heq] at hf ⊢
    · exact absurd hf (not_freed_of_eq rfl hw)
    · obtain ⟨hid,hle⟩ := freed_settle (d := withoutProcess d v.pid) hw hf
      have hwv : w = v := h.eq_of_id hw hv hid
      subst hwv
      rw [unreaped_settle,hu₀]
      refine ⟨by simp,fun j hj => ?_⟩
      have := h.refcount_two hw hu hj
      simp only at hle
      omega
    · obtain ⟨hid,_⟩ := freed_settle (d := deleteEvent (withoutProcess d v.pid) i) hw hf
      have hwv : w = v := h.eq_of_id hw hv hid
      subst hwv
      rw [unreaped_settle,settle_queue]
      refine ⟨(hu₀ w.pid).trans (by simp),fun j hj => ?_⟩
      rw [Option.some.inj (hj.symm.trans hi)]
      exact removed_delete d.queue i
  | expire id =>
    obtain ⟨v,hv,hid,_,i,hi,rfl⟩ := expire_cases hstep
    rw [expire_eq h.ids hv (h.refcount_two hv (ha v hv hid) hi)] at hf
    obtain ⟨_,hle⟩ := freed_settle (d := deleteEvent d i) hw hf
    simp at hle
  | start id o =>
    obtain ⟨⟨ids,hids⟩,_⟩ := start_ids hstep
    exact absurd hf (not_freed_of_ids _ hids hw)
  | kill =>
    cases hstep
    exact absurd hf (not_freed_of_eq (by simp [workerKill,List.map_map,Function.comp_def]) hw)
  | insert dev => cases hstep; exact absurd hf (not_freed_of_eq rfl hw)
  | cleanup => cases hstep; exact absurd hf (not_freed_of_eq rfl hw)
  | setMax n => cases hstep; exact absurd hf (not_freed_of_eq rfl hw)
  | fail _ _ | handled _ _ | leave _ | goOn _ | receive _ _ | readSigterm _ | pollFails _ | crash _ _ =>
    exact absurd hf (hworker _ _ hstep)

/-- Every worker has one reference for its process and one for its event, and is in the
list as long as one is left; no freed worker was used. -/
structure Counted (d : State) : Prop where
  refcount : ∀ w ∈ d.workers, w.refcount = owed d w
  kept : ∀ w ∈ d.workers, 0 < owed d w
  children : d.children = d.workers.length
  safe : d.useAfterFree = false

theorem counted_of_inv {d : State} (h : Workers.Inv d) : Counted d :=
  ⟨fun w hw => (h.counts w hw).1,fun w hw => (h.counts w hw).1 ▸ (h.counts w hw).2,h.children,h.safe⟩

/-- The references of the workers are exact along every run of timely steps, and each
step frees a worker only when both its references are gone. -/
theorem worker_references_exact (as : List Act) {d : State} (hok : Along step Timely {} as)
    (hrun : run step {} as = some d) :
    Counted d ∧ ∀ a d', Timely d a → step d a = some d' → Counted d' ∧ ∀ w ∈ d.workers, Freed d' w →
      unreaped d' w.pid = false ∧ ∀ i, w.event = some i → Removed d'.queue i := by
  have hinv : Workers.Inv d :=
    run_invariant Workers.Inv (fun _ _ _ hs ha h => step_inv hs ha.fresh h) inv_init hok hrun
  refine ⟨counted_of_inv hinv,fun a d' ha h => ⟨counted_of_inv (step_inv hinv ha.fresh h),fun w hw hf => ?_⟩⟩
  exact step_frees hinv ha h hw hf

/-- A worker sends its result and is expired before the result is read. -/
def lateResult : List Act :=
  [.insert { seqnum := 1, devpath := str "/block/sda" }, .start 0 { fork := some 100 },
   .handled 100 false, .expire 0]

/-- A worker gets a second event, exits with 0 without handling it and is reaped. -/
def exitWithEvent : List Act :=
  [.insert { seqnum := 1, devpath := str "/block/sda" }, .start 0 { fork := some 100 },
   .handled 100 false, .goOn 100, .returned, .insert { seqnum := 2, devpath := str "/block/sda" },
   .start 1 {}, .pollFails 100, .reap 100]

/-- The late result frees a worker whose process is not reaped; the timeout after the
exit uses the worker that it has just freed. -/
theorem timeout_breaks_references :
    (∃ d d' w, run step {} lateResult = some d ∧ step d .returned = some d' ∧ w ∈ d.workers ∧
      Freed d' w ∧ unreaped d' w.pid = true) ∧
    ∃ d d', run step {} exitWithEvent = some d ∧ step d (.expire 0) = some d' ∧ d'.useAfterFree = true :=
  ⟨⟨_,_,_,rfl,rfl,List.mem_cons_self ..,by decide,by decide⟩,_,_,rfl,rfl,by decide⟩

theorem worker_references_exact_result :
    ∃ d, run step {} [.insert { seqnum := 1, devpath := str "/block/sda" },
      .start 0 { fork := some 100 }, .handled 100 false] = some d ∧ Counted d :=
  ⟨_,rfl,(worker_references_exact [.insert { seqnum := 1, devpath := str "/block/sda" },
    .start 0 { fork := some 100 }, .handled 100 false] (by decide) rfl).1⟩

/-- No process is reaped with exit status 0 while its worker has an event. -/
def NoSilentExit (d : State) : Act → Prop
  | .reap pid => (findProcess d pid).map (·.phase) = some (.dead (.exited 0)) →
      ∀ w ∈ d.workers, w.pid = pid → w.event = none
  | _ => True

instance (d : State) (a : Act) : Decidable (NoSilentExit d a) :=
  match a with
  | .reap pid => inferInstanceAs (Decidable ((findProcess d pid).map (·.phase) = some (.dead (.exited 0)) →
      ∀ w ∈ d.workers, w.pid = pid → w.event = none))
  | .insert _ | .start .. | .returned | .expire _ | .kill | .cleanup | .setMax _ | .fail ..
  | .handled .. | .leave _ | .goOn _ | .receive .. | .readSigterm _ | .pollFails _ | .crash .. =>
    isTrue trivial

/-- The invariant when, in addition, every worker still has its process. -/
structure Alive (d : State) : Prop where
  inv : Workers.Inv d
  unreaped : ∀ w ∈ d.workers, unreaped d w.pid = true

theorem Alive.fresh {d : State} (h : Alive d) (a : Act) : Fresh d a := by
  cases a with
  | start id o => exact fun w hw _ => h.unreaped w hw
  | expire id => exact fun w hw _ => h.unreaped w hw
  | _ => trivial

/-- After a worker was settled the others have their processes as before. -/
theorem unreaped_after_settle {d d₁ : State} {w w' : Worker} (hw : w ∈ d.workers)
    (hpid : w'.pid = w.pid) (hws : d₁.workers = d.workers)
    (hu : ∀ v ∈ d.workers, v.id ≠ w'.id ∨ 0 < w'.refcount → unreaped d₁ v.pid = true) :
    ∀ v ∈ (settle d₁ w').workers, unreaped (settle d₁ w') v.pid = true := by
  intro v hv
  rw [unreaped_settle]
  rcases mem_settle hv with ⟨rfl,hpos⟩ | ⟨hv,hne⟩
  · exact hpid ▸ hu w hw (Or.inr hpos)
  · exact hu v (hws ▸ hv) (Or.inl hne)

theorem unreaped_start {d d' : State} (hu : ∀ w ∈ d.workers, unreaped d w.pid = true) {id : ℕ}
    {o : StartOracle} (h : startEvent d id o = some d') : ∀ w ∈ d'.workers, unreaped d' w.pid = true := by
  obtain ⟨x,_,rfl,⟨_,rfl⟩ | ⟨_,g,hg,hcases⟩⟩ := startEvent_cases h
  · exact hu
  simp only at hcases
  set d₁ : State := { d with queue := (testBusy d.queue x).2, workers := d.workers.map g }
  have hu₁ : ∀ w ∈ d₁.workers, unreaped d₁ w.pid = true := List.forall_mem_map.mpr fun w hw => by
    rcases hg w with hg | hg <;> rw [hg] <;> exact hu w hw
  rcases hcases with rfl | rfl | ⟨_,⟨v,_,_,rfl⟩ | ⟨pid,_,_,rfl⟩⟩
  · exact hu₁
  · exact hu₁
  · intro w hw
    have hsame : unreaped (assign d₁ x.id v) w.pid = unreaped d₁ w.pid :=
      unreaped_map _ _ _ (fun p => by split_ifs <;> rfl) rfl _
    have hpids : (assign d₁ x.id v).workers.map (·.pid) = d₁.workers.map (·.pid) := by
      simp only [assign,setEventState,updateWorker,workerRef,List.map_map]
      refine List.map_congr_left fun u _ => ?_
      by_cases hu : u.id = v.id <;> simp [hu]
    obtain ⟨u,hu,hpid⟩ := List.mem_map.mp (hpids ▸ List.mem_map_of_mem hw)
    rw [hsame,← hpid]
    exact hu₁ u hu
  · intro w hw
    have hmore : unreaped (forked d₁ x.id pid) w.pid = (unreaped d₁ w.pid || decide (pid = w.pid)) := by
      simp [unreaped,forked]
    rw [hmore]
    rcases List.mem_append.mp hw with hw | hw
    · simp [hu₁ w hw]
    · simp only [List.mem_singleton] at hw
      simp [hw]

theorem step_alive {d d' : State} {a : Act} (h : Alive d) (ha : NoSilentExit d a)
    (hstep : step d a = some d') : Alive d' := by
  refine ⟨step_inv h.inv (h.fresh a) hstep,?_⟩
  have hworker : ∀ pid b, workerStep d pid b = some d' → ∀ w ∈ d'.workers, unreaped d' w.pid = true := by
    intro pid b hb
    have hu := unreaped_workerStep hb
    obtain ⟨p,ms,_,rfl⟩ := workerStep_cases hb
    exact fun w hw => (hu w.pid).trans (h.unreaped w hw)
  cases a with
  | returned =>
    obtain ⟨pid,rest,hm,⟨_,rfl⟩ | ⟨w,hw,rfl,rfl⟩⟩ := returned_cases h.inv hstep
    · exact h.unreaped
    · obtain ⟨q,hq,_⟩ := release_eq { d with messages := rest } w.event h.inv.addresses
      rw [hq]
      exact unreaped_after_settle (d := d) hw rfl rfl fun v hv _ => h.unreaped v hv
  | reap pid =>
    obtain ⟨p,status,hp,hphase,hu,rfl⟩ := reap_cases hstep
    have hu₀ := unreaped_withoutProcess d pid
    have hother : ∀ w ∈ d.workers, w.pid ≠ pid → unreaped (withoutProcess d pid) w.pid = true :=
      fun w hw hne => by simp [hu₀,h.unreaped w hw,hne]
    rcases reaped_cases h.inv hu status with ⟨hne,heq⟩ | ⟨w,hw,rfl,⟨hs,heq⟩ | ⟨i,_,hi,heq⟩⟩
    all_goals rw [heq]
    · exact fun w hw => hother w hw (hne w hw)
    · have hnone : w.event = none := hs.elim (fun hs => ha (by simp [hp,hphase,hs]) w hw rfl) id
      have hc : w.refcount = 1 := by simpa [owed,hu,hnone] using (h.inv.counts w hw).1
      refine unreaped_after_settle (d := d) hw rfl rfl fun v hv hor => hother v hv fun hpid => ?_
      have hvw := h.inv.eq_of_pid hv hw hpid
      simp [hvw,hc] at hor
    · refine unreaped_after_settle (d := d) hw rfl rfl fun v hv hor => hother v hv fun hpid => ?_
      have hvw := h.inv.eq_of_pid hv hw hpid
      simp [hvw] at hor
  | expire id =>
    obtain ⟨w,hw,hid,_,i,hi,rfl⟩ := expire_cases hstep
    rw [expire_eq h.inv.ids hw (h.inv.refcount_two hw (h.unreaped w hw) hi)]
    exact unreaped_after_settle (d := d) hw rfl rfl fun v hv _ => h.unreaped v hv
  | start id o => exact unreaped_start h.unreaped hstep
  | kill =>
    cases hstep
    refine List.forall_mem_map.mpr fun w hw => ?_
    refine (unreaped_map d _ _ (fun p => ?_) rfl w.pid).trans (h.unreaped w hw)
    split_ifs <;> rfl
  | insert dev => cases hstep; exact h.unreaped
  | cleanup => cases hstep; exact h.unreaped
  | setMax n => cases hstep; exact h.unreaped
  | fail _ _ | handled _ _ | leave _ | goOn _ | receive _ _ | readSigterm _ | pollFails _ | crash _ _ =>
    exact hworker _ _ hstep

/-- The action reads a result of the worker, reaps its process after a failure, or
expires the worker. -/
def Releases (d : State) (w : Worker) : Act → Prop
  | .returned => d.messages.head? = some w.pid
  | .reap pid => pid = w.pid ∧ (findProcess d pid).map (·.phase) ≠ some (.dead (.exited 0))
  | .expire id => id = w.id
  | _ => False

theorem not_removed_of_ids {q q' : Queue} (h : q'.events.map (·.id) = q.events.map (·.id)) {e : Event}
    (he : e ∈ q.events) : ¬Removed q' e.id :=
  fun hr => hr (h ▸ List.mem_map_of_mem he)

theorem release_removes {d : State} {e : Event} (he : e ∈ d.queue.events) (o : Option ℕ)
    (hr : Removed (o.elim d (deleteEvent d)).queue e.id) : o = some e.id := by
  cases o with
  | none => exact absurd hr (not_removed_of_ids rfl he)
  | some i =>
    by_contra hne
    refine hr (List.mem_map_of_mem (List.mem_filter.mpr ⟨he,?_⟩))
    exact decide_eq_true fun h => hne (h ▸ rfl)

theorem step_removes {d d' : State} {a : Act} (h : Alive d) (hstep : step d a = some d') {e : Event}
    (he : e ∈ d.queue.events) (hrun : e.state = .running) (hr : Removed d'.queue e.id) :
    ∃ w ∈ d.workers, w.event = some e.id ∧ Releases d w a := by
  have hworker : ∀ pid b, workerStep d pid b = some d' → ¬Removed d'.queue e.id := by
    intro pid b hb
    obtain ⟨p,ms,_,rfl⟩ := workerStep_cases hb
    exact not_removed_of_ids rfl he
  cases a with
  | returned =>
    obtain ⟨pid,rest,hm,⟨_,rfl⟩ | ⟨w,hw,rfl,rfl⟩⟩ := returned_cases h.inv hstep
    · exact absurd hr (not_removed_of_ids rfl he)
    · rw [settle_queue] at hr
      exact ⟨w,hw,release_removes (d := { d with messages := rest }) he _ hr,by simp [Releases,hm]⟩
  | reap pid =>
    obtain ⟨p,status,hp,hphase,hu,rfl⟩ := reap_cases hstep
    rcases reaped_cases h.inv hu status with ⟨_,heq⟩ | ⟨w,hw,rfl,⟨_,heq⟩ | ⟨i,hs,hi,heq⟩⟩
    all_goals rw [heq] at hr
    · exact absurd hr (not_removed_of_ids rfl he)
    · rw [settle_queue] at hr
      exact absurd hr (not_removed_of_ids rfl he)
    · rw [settle_queue] at hr
      have := release_removes (d := withoutProcess d w.pid) he (some i) hr
      exact ⟨w,hw,hi.trans this,rfl,by simpa [hp,hphase] using hs⟩
  | expire id =>
    obtain ⟨w,hw,hid,_,i,hi,rfl⟩ := expire_cases hstep
    rw [expire_eq h.inv.ids hw (h.inv.refcount_two hw (h.unreaped w hw) hi),settle_queue] at hr
    exact ⟨w,hw,hi.trans (release_removes he (some i) hr),hid.symm⟩
  | start id o => exact absurd hr (not_removed_of_ids (start_ids hstep).2 he)
  | insert dev =>
    cases hstep
    refine absurd ?_ hr
    simp only [eventQueueInsert,List.map_append]
    exact List.mem_append_left _ (List.mem_map_of_mem he)
  | cleanup =>
    cases hstep
    refine absurd ?_ hr
    exact List.mem_map_of_mem (List.mem_filter.mpr ⟨he,by simp [hrun]⟩)
  | kill => cases hstep; exact absurd hr (not_removed_of_ids rfl he)
  | setMax n => cases hstep; exact absurd hr (not_removed_of_ids rfl he)
  | fail _ _ | handled _ _ | leave _ | goOn _ | receive _ _ | readSigterm _ | pollFails _ | crash _ _ =>
    exact absurd hr (hworker _ _ hstep)

theorem step_removed {d d' : State} {a : Act} (hstep : step d a = some d') :
    d.queue.nextId ≤ d'.queue.nextId ∧
      ∀ i < d.queue.nextId, Removed d.queue i → Removed d'.queue i := by
  have hupdate : ∀ (q : Queue) (i j : ℕ) (f : Event → Event), Keeps f → Removed q i →
      Removed (update q j f) i := fun q i j f hf hq => by rwa [Removed,update_ids q j hf]
  have hbusy : ∀ (e : Event) (i : ℕ), Removed d.queue i → Removed (testBusy d.queue e).2 i :=
    fun e i => hupdate _ _ _ _ (keeps_memo _)
  rcases Serialization.step_queue hstep with ⟨dev,rfl,hq⟩ | ⟨e,_,hq⟩ | ⟨p,hq⟩
  · rw [hq]
    refine ⟨Nat.le_succ _,fun i hlt hr => ?_⟩
    simp only [Removed,eventQueueInsert,List.map_append,List.mem_append,not_or]
    exact ⟨hr,by simpa using hlt.ne⟩
  · rcases hq with hq | hq | ⟨_,hq⟩ <;> rw [hq]
    · exact ⟨le_rfl,fun i _ hr => hbusy e i hr⟩
    · exact ⟨le_rfl,fun i _ hr => hupdate _ _ _ _ (keeps_state _) (hbusy e i hr)⟩
    · exact ⟨le_rfl,fun i _ hr => hupdate _ _ _ _ (keeps_state _) (hbusy e i hr)⟩
  · rw [hq]
    exact ⟨le_rfl,fun i _ hr hmem => hr ((List.filter_sublist.map _).subset hmem)⟩

theorem run_removed {d d' : State} {bs : List Act} {i : ℕ} (hrun : run step d bs = some d')
    (hlt : i < d.queue.nextId) (h : Removed d.queue i) : Removed d'.queue i := by
  have hstep : ∀ s a t, (i < s.queue.nextId ∧ Removed s.queue i) → True → step s a = some t →
      i < t.queue.nextId ∧ Removed t.queue i := by
    intro s a t hs _ hst
    obtain ⟨hle,hrem⟩ := step_removed hst
    exact ⟨hs.1.trans_le hle,hrem i hs.1 hs.2⟩
  exact (run_invariant _ hstep ⟨hlt,h⟩ (along_true d bs) hrun).2

/-- The event is the one of exactly one worker, and the process of that one is not reaped. -/
def Owned (d : State) (i : ℕ) : Prop :=
  ∃ w, d.workers.filter (·.event = some i) = [w] ∧ unreaped d w.pid = true

theorem Alive.owned {d : State} (h : Alive d) {e : Event} (he : e ∈ d.queue.events)
    (hr : e.state = .running) : Owned d e.id := by
  obtain ⟨w,hw,hwe⟩ := (h.inv.running e.id).mp ⟨e,he,rfl,hr⟩
  refine ⟨w,?_,h.unreaped w hw⟩
  have heq : d.workers.filter (·.event = some e.id) = d.workers.filter (· == w) := by
    refine List.filter_congr fun v hv => ?_
    by_cases hvw : v = w
    · simp [hvw,hwe]
    · have hne : v.event ≠ some e.id := fun hve => hvw (h.inv.owners v hv w hw e.id hve hwe)
      simp [hvw,hne]
  rw [heq,List.filter_beq,List.count_eq_one_of_mem (List.Nodup.of_map _ h.inv.ids) hw]
  rfl

/-- No orphaned event, along every run without silent exits: each running event has
exactly one owner, no two workers own the same event, and the event leaves the queue
only through its owner and for good. -/
theorem running_event_owned (as : List Act) {d : State} (hok : Along step NoSilentExit {} as)
    (hrun : run step {} as = some d) :
    (∀ e ∈ d.queue.events, e.state = .running → Owned d e.id) ∧
    (∀ w ∈ d.workers, ∀ v ∈ d.workers, ∀ i, w.event = some i → v.event = some i → w = v) ∧
    ∀ e ∈ d.queue.events, e.state = .running → ∀ a d', step d a = some d' → Removed d'.queue e.id →
      (∃ w ∈ d.workers, w.event = some e.id ∧ Releases d w a) ∧
      ∀ bs d'', run step d' bs = some d'' → Removed d''.queue e.id := by
  have hinv : Alive d := run_invariant Alive (fun _ _ _ hs ha h => step_alive hs ha h)
    ⟨inv_init,by simp⟩ hok hrun
  refine ⟨fun e he hr => hinv.owned he hr,hinv.inv.owners,fun e he hr a d' hstep hrem => ?_⟩
  refine ⟨step_removes hinv hstep he hr hrem,fun bs d'' hbs => ?_⟩
  have hlt := hinv.inv.addresses.fresh e he
  exact run_removed hbs (hlt.trans_le (step_removed hstep).1) hrem

/-- An idle worker gets an event and all workers are killed; the worker reads its SIGTERM
before the device message. -/
def sigtermFirst : List Act :=
  [.insert { seqnum := 1, devpath := str "/block/sda" }, .start 0 { fork := some 100 },
   .handled 100 false, .goOn 100, .returned, .insert { seqnum := 2, devpath := str "/block/sda" },
   .start 1 {}, .kill, .readSigterm 100, .reap 100]

theorem silent_exit_orphans_event :
    ∃ d e, run step {} sigtermFirst = some d ∧ e ∈ d.queue.events ∧ e.state = .running ∧
      ∀ w ∈ d.workers, w.event = some e.id → unreaped d w.pid = false :=
  ⟨_,_,rfl,List.mem_cons_self ..,rfl,by decide⟩

theorem running_event_owned_result :
    ∃ d, run step {} lateResult.dropLast = some d ∧
      ∀ e ∈ d.queue.events, e.state = .running → Owned d e.id :=
  ⟨_,rfl,(running_event_owned lateResult.dropLast (by decide) rfl).1⟩

end Ownership
end Udev
