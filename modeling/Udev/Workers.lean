import Udev.Daemon

/-! Who owns a running event and who holds a reference to a worker. One
invariant ties the workers to the running events and to the processes; it holds
along every run in which no worker is expired after its process was reaped. -/
namespace Udev
namespace Workers

open Runs EventQueue Daemon

def Runs (q : Queue) (i : ℕ) : Prop := ∃ e ∈ q.events, e.id = i ∧ e.state = .running

theorem runs_insert (q : Queue) (dev : Device) (i : ℕ) : Runs (eventQueueInsert q dev) i ↔ Runs q i := by
  simp [Runs,eventQueueInsert,or_and_right,exists_or]

theorem runs_delete (q : Queue) (j i : ℕ) : Runs (eventQueueDelete q j) i ↔ Runs q i ∧ i ≠ j := by
  simp only [Runs,eventQueueDelete,List.mem_filter,decide_eq_true_eq]
  constructor
  · rintro ⟨e,⟨he,hne⟩,rfl,hr⟩; exact ⟨⟨e,he,rfl,hr⟩,hne⟩
  · rintro ⟨⟨e,he,rfl,hr⟩,hne⟩; exact ⟨e,⟨he,hne⟩,rfl,hr⟩

theorem runs_cleanup (q : Queue) (i : ℕ) : Runs (eventQueueCleanup q .queued) i ↔ Runs q i := by
  simp only [Runs,eventQueueCleanup,List.mem_filter,decide_eq_true_eq]
  constructor
  · rintro ⟨e,⟨he,_⟩,hid,hr⟩; exact ⟨e,he,hid,hr⟩
  · rintro ⟨e,he,hid,hr⟩; exact ⟨e,⟨he,by simp [hr]⟩,hid,hr⟩

theorem runs_update (q : Queue) (j i : ℕ) {f : Event → Event} (hf : Keeps f) :
    Runs (update q j f) i ↔
      ∃ e ∈ q.events, e.id = i ∧ (if e.id = j then f e else e).state = .running := by
  simp only [Runs,EventQueue.update,List.mem_map]
  constructor
  · rintro ⟨_,⟨e,he,rfl⟩,hid,hr⟩
    exact ⟨e,he,by rwa [(hf.ite j).id] at hid,hr⟩
  · rintro ⟨e,he,hid,hr⟩
    exact ⟨_,⟨e,he,rfl⟩,by rwa [(hf.ite j).id],hr⟩

theorem runs_testBusy (q : Queue) (e : Event) (i : ℕ) : Runs (testBusy q e).2 i ↔ Runs q i := by
  rw [testBusy,runs_update _ _ _ (keeps_memo _)]
  refine exists_congr fun x => and_congr_right fun _ => and_congr_right fun _ => ?_
  split_ifs <;> rfl

/-- Setting the state of a queued event back to queued changes nothing. -/
theorem runs_requeue {q : Queue} (hq : Addresses q) {e : Event} (he : e ∈ q.events)
    (hs : e.state = .queued) (i : ℕ) :
    Runs (update q e.id fun e => { e with state := .queued }) i ↔ Runs q i := by
  rw [runs_update _ _ _ (keeps_state _)]
  refine exists_congr fun x => and_congr_right fun hx => and_congr_right fun _ => ?_
  split_ifs with h
  · simp [hq.eq_of_id hx he h,hs]
  · rfl

theorem runs_start {q : Queue} {j : ℕ} (hj : ∃ e ∈ q.events, e.id = j) (i : ℕ) :
    Runs (update q j fun e => { e with state := .running }) i ↔ Runs q i ∨ i = j := by
  rw [runs_update _ _ _ (keeps_state _)]
  constructor
  · rintro ⟨x,hx,rfl,hr⟩
    split_ifs at hr with h
    · exact Or.inr h
    · exact Or.inl ⟨x,hx,rfl,hr⟩
  · rintro (⟨x,hx,rfl,hr⟩ | rfl)
    · exact ⟨x,hx,rfl,by split_ifs <;> simp [hr]⟩
    · obtain ⟨e,he,rfl⟩ := hj
      exact ⟨e,he,rfl,by simp⟩

def owed (d : State) (w : Worker) : ℤ :=
  (if unreaped d w.pid then 1 else 0) + (if w.event.isSome then 1 else 0)

structure Inv (d : State) : Prop where
  addresses : Addresses d.queue
  ids : (d.workers.map (·.id)).Nodup
  fresh : ∀ w ∈ d.workers, w.id < d.nextWorker
  pids : (d.workers.map (·.pid)).Nodup
  counts : ∀ w ∈ d.workers, w.refcount = owed d w ∧ 0 < w.refcount
  idle : ∀ w ∈ d.workers, w.state = .idle → w.event = none
  busy : ∀ w ∈ d.workers, w.state = .running → w.event ≠ none
  owners : ∀ w ∈ d.workers, ∀ v ∈ d.workers, ∀ i, w.event = some i → v.event = some i → w = v
  running : ∀ i, Runs d.queue i ↔ ∃ w ∈ d.workers, w.event = some i
  children : d.children = d.workers.length
  safe : d.useAfterFree = false

theorem Inv.eq_of_id {d : State} (h : Inv d) {w v : Worker} (hw : w ∈ d.workers)
    (hv : v ∈ d.workers) (hid : w.id = v.id) : w = v :=
  List.inj_on_of_nodup_map h.ids hw hv hid

theorem Inv.eq_of_pid {d : State} (h : Inv d) {w v : Worker} (hw : w ∈ d.workers)
    (hv : v ∈ d.workers) (hpid : w.pid = v.pid) : w = v :=
  List.inj_on_of_nodup_map h.pids hw hv hpid

theorem Inv.length_filter {d : State} (h : Inv d) {w : Worker} (hw : w ∈ d.workers) :
    (d.workers.filter (·.id ≠ w.id)).length+1 = d.workers.length := by
  have heq : d.workers.filter (·.id ≠ w.id) = d.workers.erase w := by
    rw [(List.Nodup.of_map _ h.ids).erase_eq_filter]
    refine List.filter_congr fun v hv => ?_
    have hiff : v.id = w.id ↔ v = w := ⟨h.eq_of_id hv hw,fun he => he ▸ rfl⟩
    by_cases hvw : v = w <;> simp [hvw,hiff]
  have hpos := List.length_pos_of_mem hw
  rw [heq,List.length_erase_of_mem hw]
  omega

theorem inv_init : Inv {} := by
  refine ⟨Addresses.empty,List.nodup_nil,?_,List.nodup_nil,?_,?_,?_,?_,?_,rfl,rfl⟩ <;> simp [Runs]

/-- Killing workers and any change of the queue that starts and ends no event. -/
theorem Inv.frame {d d' : State} (h : Inv d) {g : Worker → Worker} (hg : Kills g)
    (hw : d'.workers = d.workers.map g) (hn : d'.nextWorker = d.nextWorker)
    (hc : d'.children = d.children) (hu : ∀ w ∈ d.workers, unreaped d' w.pid = unreaped d w.pid)
    (hf : d'.useAfterFree = d.useAfterFree) (ha : Addresses d'.queue)
    (hr : ∀ i, Runs d'.queue i ↔ Runs d.queue i) : Inv d' := by
  have hid : ∀ w, (g w).id = w.id := fun w => by rcases hg w with h | h <;> rw [h]
  have hpid : ∀ w, (g w).pid = w.pid := fun w => by rcases hg w with h | h <;> rw [h]
  have hev : ∀ w, (g w).event = w.event := fun w => by rcases hg w with h | h <;> rw [h]
  have href : ∀ w, (g w).refcount = w.refcount := fun w => by rcases hg w with h | h <;> rw [h]
  have hst : ∀ w s, (g w).state = s → s ≠ .killed → w.state = s := fun w s hs hk => by
    rcases hg w with h | h
    · rwa [h] at hs
    · rw [h] at hs; exact absurd hs.symm hk
  refine ⟨ha,?_,?_,?_,?_,?_,?_,?_,?_,?_,hf.trans h.safe⟩
  all_goals rw [hw]
  · simpa [List.map_map,Function.comp_def,hid] using h.ids
  · simpa [hid,hn] using h.fresh
  · simpa [List.map_map,Function.comp_def,hpid] using h.pids
  · refine List.forall_mem_map.mpr fun w hw => ?_
    simpa [owed,hpid,hev,href,hu w hw] using h.counts w hw
  · simpa [hev] using fun w hw hs => h.idle w hw (hst w .idle hs (by decide))
  · simpa [hev] using fun w hw hs => h.busy w hw (hst w .running hs (by decide))
  · simp only [List.forall_mem_map,hev]
    intro w hw v hv i hi hj
    rw [h.owners w hw v hv i hi hj]
  · intro i
    rw [hr,h.running]
    simp [hev]
  · simpa [hc] using h.children

theorem unreaped_map (d d' : State) (f : Process → Process) (hf : ∀ p, (f p).pid = p.pid)
    (h : d'.procs = d.procs.map f) (pid : ℕ) : unreaped d' pid = unreaped d pid := by
  simp [unreaped,h,List.any_map,Function.comp_def,hf]

theorem unreaped_workerStep {d d' : State} {pid : ℕ} {a : Act} (h : workerStep d pid a = some d')
    (i : ℕ) : unreaped d' i = unreaped d i := by
  obtain ⟨p,ms,_,rfl⟩ := workerStep_cases h
  exact unreaped_map _ _ _ (fun v => by split_ifs with hv <;> simp [hv]) rfl i

theorem Inv.owed_other {d d' : State} (h : Inv d) {w v : Worker} (hw : w ∈ d.workers) (hv : v ∈ d.workers)
    (hne : v.id ≠ w.id) (hu : ∀ pid, pid ≠ w.pid → unreaped d' pid = unreaped d pid) : owed d' v = owed d v := by
  have hpid : v.pid ≠ w.pid := fun he => hne (by rw [h.eq_of_pid hv hw he])
  rw [owed,owed,hu v.pid hpid]

/-- The invariant after one worker `w` became `w'`, where the queue runs what the workers have. -/
theorem Inv.replace {d d' : State} (h : Inv d) {w : Worker} (w' : Worker) (hw : w ∈ d.workers)
    (hid : w'.id = w.id) (hpid : w'.pid = w.pid)
    (hws : d'.workers = d.workers.map fun v => if v.id = w.id then w' else v)
    (hn : d'.nextWorker = d.nextWorker) (hc : d'.children = d.children) (hf : d'.useAfterFree = d.useAfterFree)
    (hu : ∀ pid, pid ≠ w.pid → unreaped d' pid = unreaped d pid)
    (ha : Addresses d'.queue) (hcount : w'.refcount = owed d' w' ∧ 0 < w'.refcount)
    (hidle : w'.state = .idle → w'.event = none) (hbusy : w'.state = .running → w'.event ≠ none)
    (hown : ∀ i, w'.event = some i → ∀ v ∈ d.workers, v.event = some i → v = w)
    (hr : ∀ i, Runs d'.queue i ↔ w'.event = some i ∨ ∃ v ∈ d.workers, v.id ≠ w.id ∧ v.event = some i) :
    Inv d' := by
  let f : Worker → Worker := fun v => if v.id = w.id then w' else v
  have hlist : d'.workers = d.workers.map f := hws
  have hfw : f w = w' := if_pos rfl
  have hfid : ∀ v, (f v).id = v.id := fun v => by
    simp only [f]; split_ifs with hv
    · exact hid.trans hv.symm
    · rfl
  have hfv : ∀ v ∈ d.workers, f v = w' ∧ v = w ∨ f v = v ∧ v.id ≠ w.id := fun v hv => by
    by_cases hvw : v.id = w.id
    · exact Or.inl ⟨if_pos hvw,h.eq_of_id hv hw hvw⟩
    · exact Or.inr ⟨if_neg hvw,hvw⟩
  refine ⟨ha,?_,?_,?_,?_,?_,?_,?_,?_,?_,hf.trans h.safe⟩
  all_goals rw [hlist]
  · simpa [List.map_map,Function.comp_def,hfid] using h.ids
  · simp only [List.forall_mem_map,hfid]
    intro v hv
    exact (h.fresh v hv).trans_eq hn.symm
  · have hp : d.workers.map (fun v => (f v).pid) = d.workers.map (·.pid) :=
      List.map_congr_left fun v hv => by
        rcases hfv v hv with ⟨hf,rfl⟩ | ⟨hf,_⟩ <;> rw [hf]
        exact hpid
    simpa [List.map_map,Function.comp_def,hp] using h.pids
  · refine List.forall_mem_map.mpr fun v hv => ?_
    rcases hfv v hv with ⟨hf,rfl⟩ | ⟨hf,hne⟩ <;> rw [hf]
    · exact hcount
    · rw [h.owed_other hw hv hne hu]
      exact h.counts v hv
  · refine List.forall_mem_map.mpr fun v hv => ?_
    rcases hfv v hv with ⟨hf,rfl⟩ | ⟨hf,_⟩ <;> rw [hf]
    · exact hidle
    · exact h.idle v hv
  · refine List.forall_mem_map.mpr fun v hv => ?_
    rcases hfv v hv with ⟨hf,rfl⟩ | ⟨hf,_⟩ <;> rw [hf]
    · exact hbusy
    · exact h.busy v hv
  · refine List.forall_mem_map.mpr fun v hv => List.forall_mem_map.mpr fun u hu' i hi hj => ?_
    rcases hfv v hv with ⟨hf,rfl⟩ | ⟨hf,hne⟩ <;> rcases hfv u hu' with ⟨hf',rfl⟩ | ⟨hf',hne'⟩
    · rfl
    · rw [hf] at hi
      rw [hf'] at hj
      exact absurd (congrArg (·.id) (hown i hi u hu' hj)) hne'
    · rw [hf] at hi
      rw [hf'] at hj
      exact absurd (congrArg (·.id) (hown i hj v hv hi)) hne
    · rw [hf] at hi ⊢
      rw [hf'] at hj ⊢
      exact h.owners v hv u hu' i hi hj
  · intro i
    rw [hr]
    constructor
    · rintro (hi | ⟨v,hv,hne,hvi⟩)
      · exact ⟨f w,List.mem_map_of_mem hw,hfw ▸ hi⟩
      · refine ⟨f v,List.mem_map_of_mem hv,?_⟩
        rw [show f v = v from if_neg hne]
        exact hvi
    · rintro ⟨_,hx,hvi⟩
      obtain ⟨v,hv,rfl⟩ := List.mem_map.mp hx
      rcases hfv v hv with ⟨hf,rfl⟩ | ⟨hf,hne⟩ <;> rw [hf] at hvi
      · exact Or.inl hvi
      · exact Or.inr ⟨v,hv,hne,hvi⟩
  · rw [List.length_map,hc]
    exact h.children

theorem Inv.assign {d : State} (h : Inv d) {w : Worker} (hw : w ∈ d.workers) (hs : w.event = none)
    {id : ℕ} (hid : ∃ e ∈ d.queue.events, e.id = id) (hq : ¬Runs d.queue id) :
    Inv (assign d id w) := by
  have hws : (Daemon.assign d id w).workers = d.workers.map fun v => if v.id = w.id then
      { w with refcount := w.refcount+1, event := some id, state := .running } else v := by
    simp only [Daemon.assign,setEventState,updateWorker,workerRef,List.map_map]
    apply List.map_congr_left
    intro v hv
    by_cases hvw : v.id = w.id
    · obtain rfl := h.eq_of_id hv hw hvw
      simp
    · simp [hvw]
  have hu : ∀ pid, unreaped (Daemon.assign d id w) pid = unreaped d pid :=
    unreaped_map _ _ _ (fun p => by split_ifs <;> rfl) rfl
  have hcount := h.counts w hw
  refine h.replace { w with refcount := w.refcount+1, event := some id, state := .running } hw rfl rfl hws rfl rfl rfl
    (fun pid _ => hu pid) (h.addresses.update (keeps_state _) id) ?_ (fun hst => by cases hst)
    (fun _ => Option.some_ne_none id) ?_ ?_
  · simp only [owed,hu,hs,Option.isSome_some,Option.isSome_none] at hcount ⊢
    simp only [Bool.false_eq_true,if_false,if_true] at hcount ⊢
    omega
  · intro i hi v hv hvi
    obtain rfl := Option.some.inj hi
    exact absurd ((h.running id).mpr ⟨v,hv,hvi⟩) hq
  · intro i
    have hq' : Runs (Daemon.assign d id w).queue i ↔ Runs d.queue i ∨ i = id := runs_start hid i
    rw [hq',h.running]
    constructor
    · rintro (⟨v,hv,hvi⟩ | rfl)
      · have hne : v.id ≠ w.id := fun hvw => by
          rw [h.eq_of_id hv hw hvw,hs] at hvi
          cases hvi
        exact Or.inr ⟨v,hv,hne,hvi⟩
      · exact Or.inl rfl
    · rintro (hi | ⟨v,hv,-,hvi⟩)
      · exact Or.inr (Option.some.inj hi).symm
      · exact Or.inl ⟨v,hv,hvi⟩

theorem Inv.forked {d : State} (h : Inv d) {id pid : ℕ} (hid : ∃ e ∈ d.queue.events, e.id = id)
    (hq : ¬Runs d.queue id) (hp : ∀ w ∈ d.workers, w.pid ≠ pid) :
    Inv (forked d id pid) := by
  have hfree : ∀ v ∈ d.workers, v.event ≠ some id := fun v hv hv' =>
    hq ((h.running id).mpr ⟨v,hv,hv'⟩)
  have hup : ∀ p, unreaped (Daemon.forked d id pid) p = (unreaped d p || decide (pid = p)) := fun p => by
    simp [unreaped,Daemon.forked]
  refine ⟨h.addresses.update (keeps_state _) id,?_,?_,?_,?_,?_,?_,?_,?_,?_,h.safe⟩
  · simpa [Daemon.forked,List.nodup_append] using ⟨h.ids,fun w hw => (h.fresh w hw).ne⟩
  · intro w hw
    rcases List.mem_append.mp hw with hw | hw
    · exact (h.fresh w hw).trans (Nat.lt_succ_self _)
    · simp only [List.mem_singleton] at hw
      simp [hw,Daemon.forked]
  · simpa [Daemon.forked,List.nodup_append] using ⟨h.pids,hp⟩
  · intro w hw
    rcases List.mem_append.mp hw with hw | hw
    · have hne : pid ≠ w.pid := fun he => hp w hw he.symm
      simpa [owed,hup,hne] using h.counts w hw
    · simp only [List.mem_singleton] at hw
      simp [hw,owed,hup]
  · intro w hw hs
    rcases List.mem_append.mp hw with hw | hw
    · exact h.idle w hw hs
    · simp only [List.mem_singleton] at hw
      simp [hw] at hs
  · intro w hw hs
    rcases List.mem_append.mp hw with hw | hw
    · exact h.busy w hw hs
    · simp only [List.mem_singleton] at hw
      simp [hw]
  · intro w hw v hv i hi hj
    rcases List.mem_append.mp hw with hw | hw <;> rcases List.mem_append.mp hv with hv | hv
    · exact h.owners w hw v hv i hi hj
    · simp only [List.mem_singleton] at hv
      simp only [hv] at hj
      exact absurd (hi.trans hj.symm) (hfree w hw)
    · simp only [List.mem_singleton] at hw
      simp only [hw] at hi
      exact absurd (hj.trans hi.symm) (hfree v hv)
    · simp only [List.mem_singleton] at hw hv
      rw [hw,hv]
  · intro i
    have hq' : Runs (Daemon.forked d id pid).queue i ↔ Runs d.queue i ∨ i = id := runs_start hid i
    rw [hq',h.running]
    simp [Daemon.forked,or_and_right,exists_or,eq_comm]
  · simp [Daemon.forked,h.children]

def settle (d : State) (w : Worker) : State :=
  if 0 < w.refcount then updateWorker d w.id fun _ => w else workerCleanup d w.id

/-- The invariant after one worker `w` became `w'` and the event it gave up, if any,
left the queue. -/
theorem Inv.settle {d : State} (h : Inv d) (d₁ : State) {w : Worker} (w' : Worker) (hw : w ∈ d.workers)
    (hid : w'.id = w.id) (hpid : w'.pid = w.pid)
    (hws : d₁.workers = d.workers) (hn : d₁.nextWorker = d.nextWorker)
    (hc : d₁.children = d.children) (hf : d₁.useAfterFree = d.useAfterFree)
    (hu : ∀ pid, pid ≠ w.pid → unreaped d₁ pid = unreaped d pid)
    (ha : Addresses d₁.queue) (hcount : 0 < w'.refcount → w'.refcount = owed d₁ w')
    (hfree : w'.refcount ≤ 0 → w'.event = none)
    (hidle : w'.state = .idle → w'.event = none) (hbusy : w'.state = .running → w'.event ≠ none)
    (hev : w'.event = none ∨ w'.event = w.event)
    (hr : ∀ i, Runs d₁.queue i ↔ Runs d.queue i ∧ (w.event = some i → w'.event = some i)) :
    Inv (settle d₁ w') := by
  unfold Workers.settle
  split_ifs with hpos
  · refine h.replace w' hw hid hpid ?_ hn hc hf hu ha ⟨hcount hpos,hpos⟩ hidle hbusy ?_ ?_
    · rw [updateWorker,hws,hid]
    · intro i hi v hv hvi
      rcases hev with he | he
      · rw [he] at hi
        cases hi
      · exact h.owners v hv w hw i hvi (he ▸ hi)
    · intro i
      have hq : Runs (updateWorker d₁ w'.id fun _ => w').queue i ↔ Runs d₁.queue i := Iff.rfl
      rw [hq,hr,h.running]
      constructor
      · rintro ⟨⟨v,hv,hvi⟩,hkeep⟩
        by_cases hvw : v.id = w.id
        · rw [h.eq_of_id hv hw hvw] at hvi
          exact Or.inl (hkeep hvi)
        · exact Or.inr ⟨v,hv,hvw,hvi⟩
      · rintro (hi | ⟨v,hv,hne,hvi⟩)
        · refine ⟨⟨w,hw,?_⟩,fun _ => hi⟩
          rcases hev with he | he
          · rw [he] at hi
            cases hi
          · exact he ▸ hi
        · exact ⟨⟨v,hv,hvi⟩,fun hwi => absurd (congrArg (·.id) (h.owners v hv w hw i hvi hwi)) hne⟩
  · have hnone := hfree (by omega)
    have hmem : ∀ v, v ∈ (workerCleanup d₁ w'.id).workers ↔ v ∈ d.workers ∧ v.id ≠ w.id := fun v => by
      simp [workerCleanup,hws,hid]
    have hsub : ((workerCleanup d₁ w'.id).workers).Sublist d.workers := by
      rw [workerCleanup,hws]; exact List.filter_sublist
    have hou : ∀ v, owed (workerCleanup d₁ w'.id) v = owed d₁ v := fun _ => rfl
    refine ⟨ha,h.ids.sublist (hsub.map _),fun v hv => ?_,h.pids.sublist (hsub.map _),fun v hv => ?_,
      fun v hv => h.idle v ((hmem v).mp hv).1,fun v hv => h.busy v ((hmem v).mp hv).1,
      fun v hv u hu' => h.owners v ((hmem v).mp hv).1 u ((hmem u).mp hu').1,fun i => ?_,?_,
      hf.trans h.safe⟩
    · exact (h.fresh v ((hmem v).mp hv).1).trans_eq hn.symm
    · obtain ⟨hv,hne⟩ := (hmem v).mp hv
      rw [hou,h.owed_other hw hv hne hu]
      exact h.counts v hv
    · have hq : Runs (workerCleanup d₁ w'.id).queue i ↔ Runs d₁.queue i := Iff.rfl
      rw [hq,hr,h.running,hnone]
      constructor
      · rintro ⟨⟨v,hv,hvi⟩,hkeep⟩
        refine ⟨v,(hmem v).mpr ⟨hv,fun he => ?_⟩,hvi⟩
        rw [h.eq_of_id hv hw he] at hvi
        simpa using hkeep hvi
      · rintro ⟨v,hv,hvi⟩
        obtain ⟨hv,hne⟩ := (hmem v).mp hv
        exact ⟨⟨v,hv,hvi⟩,fun hwi => absurd (by rw [h.owners v hv w hw i hvi hwi]) hne⟩
    · have hlen := h.length_filter hw
      simp only [workerCleanup,hws,hid,hc,h.children]
      omega

theorem find?_of_unique {α : Type*} {l : List α} {p : α → Bool} {x : α} (hx : x ∈ l) (hp : p x)
    (hu : ∀ y ∈ l, p y → y = x) : l.find? p = some x := by
  cases h : l.find? p with
  | none => exact absurd hp (List.find?_eq_none.mp h x hx)
  | some y => rw [hu y (List.mem_of_find?_eq_some h) (List.find?_some h)]

theorem findWorker_update {d : State} (hids : (d.workers.map (·.id)).Nodup) {w : Worker}
    (hw : w ∈ d.workers) {f : Worker → Worker} (hf : ∀ v, (f v).id = v.id) :
    findWorker (updateWorker d w.id f) w.id = some (f w) := by
  refine find?_of_unique (List.mem_map.mpr ⟨w,hw,by simp⟩) (by simp [hf]) fun y hy hid => ?_
  obtain ⟨v,hv,rfl⟩ := List.mem_map.mp hy
  have hvw : v.id = w.id := by
    have hid' : (if v.id = w.id then f v else v).id = w.id := by simpa using hid
    split_ifs at hid' with h
    · exact h
    · exact hid'
  have := List.inj_on_of_nodup_map hids hv hw hvw
  subst this
  simp

theorem filter_update (ws : List Worker) (id : ℕ) {f : Worker → Worker} (hf : ∀ v, (f v).id = v.id) :
    (ws.map fun w => if w.id = id then f w else w).filter (·.id ≠ id) =
      ws.filter (·.id ≠ id) := by
  induction ws with
  | nil => rfl
  | cons w ws ih => by_cases h : w.id = id <;> simp_all

theorem workerUnref_update {d : State} (hids : (d.workers.map (·.id)).Nodup) {w : Worker}
    (hw : w ∈ d.workers) {f : Worker → Worker} (hf : ∀ v, (f v).id = v.id) :
    workerUnref (updateWorker d w.id f) w.id =
      settle d { f w with refcount := (f w).refcount-1 } := by
  unfold workerUnref settle
  simp only [findWorker_update hids hw hf,hf]
  split_ifs with hpos
  · simp only [updateWorker,List.map_map]
    congr 1
    refine List.map_congr_left fun v hv => ?_
    by_cases hvw : v.id = w.id
    · have := List.inj_on_of_nodup_map hids hv hw hvw
      subst this
      simp [hf]
    · simp [hvw]
  · simp only [workerCleanup,updateWorker,filter_update _ _ hf]

theorem workerUnref_eq {d : State} (hids : (d.workers.map (·.id)).Nodup) {w : Worker}
    (hw : w ∈ d.workers) : workerUnref d w.id = settle d { w with refcount := w.refcount-1 } := by
  have h := workerUnref_update hids hw (f := id) fun _ => rfl
  simpa [updateWorker] using h

theorem findPid_some {d : State} {pid : ℕ} {w : Worker} (h : findPid d pid = some w) :
    w ∈ d.workers ∧ w.pid = pid :=
  ⟨List.mem_of_find?_eq_some h,by simpa using List.find?_some h⟩

theorem findWorker_some {d : State} {id : ℕ} {w : Worker} (h : findWorker d id = some w) :
    w ∈ d.workers ∧ w.id = id :=
  ⟨List.mem_of_find?_eq_some h,by simpa using List.find?_some h⟩

def returnedWorker (w : Worker) : Worker :=
  { w with
    event := none, refcount := w.refcount-1
    state := if w.state ≠ .killed then .idle else w.state }

theorem workerReturned_eq {d : State} (h : Inv d) {pid : ℕ} {w : Worker} (hw : findPid d pid = some w) :
    workerReturned d pid = settle (w.event.elim d (deleteEvent d)) (returnedWorker w) := by
  have hws : (w.event.elim d (deleteEvent d)).workers = d.workers := by cases w.event <;> rfl
  simp only [workerReturned,hw]
  exact workerUnref_update (hws ▸ h.ids) (hws ▸ (findPid_some hw).1)
    (f := fun w => { w with event := none, state := if w.state ≠ .killed then .idle else w.state })
    fun _ => rfl

theorem release_eq (d : State) (e : Option ℕ) (ha : Addresses d.queue) :
    ∃ q, e.elim d (deleteEvent d) = { d with queue := q } ∧ Addresses q ∧
      ∀ i, Runs q i ↔ Runs d.queue i ∧ e ≠ some i := by
  cases e with
  | none => exact ⟨d.queue,rfl,ha,fun i => by simp⟩
  | some id =>
    refine ⟨eventQueueDelete d.queue id,rfl,ha.filter _,fun i => ?_⟩
    rw [runs_delete]
    simp [eq_comm]

theorem Inv.workerReturned {d : State} (h : Inv d) (pid : ℕ) : Inv (workerReturned d pid) := by
  cases hf : findPid d pid with
  | none => simpa [Daemon.workerReturned,hf] using h
  | some w =>
    have hw := (findPid_some hf).1
    obtain ⟨q,hq,ha,hr⟩ := release_eq d w.event h.addresses
    obtain ⟨hc,hpos⟩ := h.counts w hw
    rw [workerReturned_eq h hf,hq]
    refine h.settle { d with queue := q } (returnedWorker w) hw rfl rfl rfl rfl rfl rfl
      (fun _ _ => rfl) ha (fun hpos' => ?_) (fun _ => rfl) (fun _ => rfl) (fun hs => ?_) (Or.inl rfl)
      fun i => ?_
    · have hle : owed d w ≤ 2 := by unfold owed; split_ifs <;> omega
      have hsome : w.event.isSome := by
        by_contra hno
        simp only [owed,hno] at hc
        simp only [returnedWorker] at hpos'
        split_ifs at hc <;> simp_all
      have : owed { d with queue := q } (returnedWorker w) = owed d w-1 := by
        simp [owed,returnedWorker,hsome,unreaped]
      rw [this]
      simp only [returnedWorker]
      omega
    · simp only [returnedWorker] at hs
      split_ifs at hs
      simp_all
    · rw [hr]
      simp [returnedWorker]

theorem updateWorker_congr {d : State} (hids : (d.workers.map (·.id)).Nodup) {w : Worker}
    (hw : w ∈ d.workers) {f g : Worker → Worker} (hfg : f w = g w) :
    updateWorker d w.id f = updateWorker d w.id g := by
  simp only [updateWorker]
  congr 1
  refine List.map_congr_left fun v hv => ?_
  split_ifs with h
  · rw [List.inj_on_of_nodup_map hids hv hw h,hfg]
  · rfl

theorem updateWorker_updateWorker (d : State) (id : ℕ) {f : Worker → Worker} (g : Worker → Worker)
    (hf : ∀ v, (f v).id = v.id) :
    updateWorker (updateWorker d id f) id g = updateWorker d id fun w => g (f w) := by
  simp only [updateWorker,List.map_map]
  congr 1
  refine List.map_congr_left fun v _ => ?_
  by_cases h : v.id = id <;> simp [h,hf]

def withoutProcess (d : State) (pid : ℕ) : State :=
  { d with procs := d.procs.filter (·.pid ≠ pid) }

theorem unreaped_withoutProcess (d : State) (pid i : ℕ) :
    unreaped (withoutProcess d pid) i = (unreaped d i && decide (i ≠ pid)) := by
  unfold unreaped withoutProcess
  rw [List.any_filter,Bool.eq_iff_iff]
  simp only [List.any_eq_true,Bool.and_eq_true,decide_eq_true_eq]
  constructor
  · rintro ⟨p,hp,hne,rfl⟩
    exact ⟨⟨p,hp,rfl⟩,hne⟩
  · rintro ⟨⟨p,hp,rfl⟩,hne⟩
    exact ⟨p,hp,hne,rfl⟩

theorem Inv.refcount_two {d : State} (h : Inv d) {w : Worker} (hw : w ∈ d.workers)
    (hu : unreaped d w.pid = true) {i : ℕ} (he : w.event = some i) : w.refcount = 2 := by
  have hc := (h.counts w hw).1
  simpa [owed,hu,he] using hc

/-- The worker of a failed process gives up its event and both references. -/
theorem handleSigchld_failed {d : State} (hids : (d.workers.map (·.id)).Nodup) {pid : ℕ} {w : Worker}
    (hw : findPid d pid = some w) (hc : w.refcount = 2) {status : Status} (hs : status ≠ .exited 0)
    {i : ℕ} (he : w.event = some i) :
    handleSigchld d pid status =
      settle (deleteEvent d i) { w with refcount := 0, state := .killed, event := none } := by
  have hmem := (findPid_some hw).1
  have hfind : findWorker (deleteEvent d i) w.id = some w := by
    refine find?_of_unique (l := d.workers) hmem (by simp) fun v hv hid => ?_
    exact List.inj_on_of_nodup_map hids hv hmem (by simpa using hid)
  have hfirst : workerUnref (deleteEvent d i) w.id =
      updateWorker (deleteEvent d i) w.id fun w => { w with refcount := w.refcount-1 } := by
    simp [workerUnref,hfind,hc]
  simp only [handleSigchld,hw,if_neg hs,he,Option.elim_some,hfirst]
  rw [workerUnref_update (d := deleteEvent d i) hids hmem
    (f := fun w => { w with refcount := w.refcount-1 }) fun _ => rfl]
  simp [settle,hc]

theorem handleSigchld_kept {d : State} (hids : (d.workers.map (·.id)).Nodup) {pid : ℕ} {w : Worker}
    (hw : findPid d pid = some w) {status : Status} (hs : status = .exited 0 ∨ w.event = none) :
    handleSigchld d pid status = settle d { w with refcount := w.refcount-1 } := by
  simp only [handleSigchld,hw]
  rw [← workerUnref_eq hids (findPid_some hw).1]
  rcases hs with hs | hs <;> simp [hs]

theorem reaped_cases {d : State} (h : Inv d) {pid : ℕ} (hu : unreaped d pid = true) (status : Status) :
    let d₀ := withoutProcess d pid
    (∀ w ∈ d.workers, w.pid ≠ pid) ∧ handleSigchld d₀ pid status = d₀ ∨
    ∃ w ∈ d.workers, w.pid = pid ∧
      ((status = .exited 0 ∨ w.event = none) ∧
        handleSigchld d₀ pid status = settle d₀ { w with refcount := w.refcount-1 } ∨
      ∃ i, status ≠ .exited 0 ∧ w.event = some i ∧ handleSigchld d₀ pid status =
        settle (deleteEvent d₀ i) { w with refcount := 0, state := .killed, event := none }) := by
  intro d₀
  cases hf : findPid d₀ pid with
  | none => exact Or.inl ⟨by simpa [findPid,d₀,withoutProcess] using hf,by simp [handleSigchld,hf]⟩
  | some w =>
    obtain ⟨hw,hpid⟩ := findPid_some hf
    refine Or.inr ⟨w,hw,hpid,?_⟩
    by_cases hs : status = .exited 0 ∨ w.event = none
    · exact Or.inl ⟨hs,handleSigchld_kept (d := d₀) h.ids hf hs⟩
    · obtain ⟨hs,hsome⟩ := not_or.mp hs
      obtain ⟨i,hi⟩ := Option.ne_none_iff_exists'.mp hsome
      have hc := h.refcount_two hw (hpid ▸ hu) hi
      exact Or.inr ⟨i,hs,hi,handleSigchld_failed (d := d₀) h.ids hf hc hs hi⟩

theorem Inv.reaped {d : State} (h : Inv d) {pid : ℕ} (hu : unreaped d pid = true) (status : Status) :
    Inv (handleSigchld (withoutProcess d pid) pid status) := by
  have hu₀ := unreaped_withoutProcess d pid
  rcases reaped_cases h hu status with ⟨hne,heq⟩ | ⟨w,hw,rfl,⟨_,heq⟩ | ⟨i,_,hi,heq⟩⟩
  all_goals rw [heq]
  · exact h.frame kills_id (by simp [withoutProcess]) rfl rfl (fun w hw => by simp [hu₀,hne w hw]) rfl
      h.addresses fun _ => Iff.rfl
  · have hc := (h.counts w hw).1
    refine h.settle (withoutProcess d w.pid) { w with refcount := w.refcount-1 } hw
      rfl rfl rfl rfl rfl rfl (fun i hi => by simp [hu₀,hi]) h.addresses (fun _ => ?_) (fun hle => ?_)
      (h.idle w hw) (h.busy w hw) (Or.inr rfl) fun i => by simp [withoutProcess]
    · simp only [owed,hu₀,hu] at hc ⊢
      simp at hc ⊢
      omega
    · by_contra hsome
      obtain ⟨i,hi⟩ := Option.ne_none_iff_exists'.mp hsome
      have := h.refcount_two hw hu hi
      simp only at hle
      omega
  · refine h.settle (deleteEvent (withoutProcess d w.pid) i)
      { w with refcount := 0, state := .killed, event := none } hw rfl rfl rfl rfl rfl rfl
      (fun i hi => (hu₀ i).trans (by simp [hi])) (h.addresses.filter _) (fun h => by simp at h)
      (fun _ => rfl) (fun _ => rfl) (fun hs => by simp at hs) (Or.inl rfl) fun j => ?_
    exact (runs_delete d.queue i j).trans (by simp [hi,eq_comm])

/-- A timeout takes the event and its reference from a worker that has both references. -/
theorem expire_eq {d : State} (hids : (d.workers.map (·.id)).Nodup) {w : Worker} (hw : w ∈ d.workers)
    (hc : w.refcount = 2) (i : ℕ) :
    expire d w i =
      settle (deleteEvent d i) { w with refcount := 1, state := .killed, event := none } := by
  have hkill : findWorker (updateWorker d w.id fun w => { w with state := .killed }) w.id =
      some { w with state := .killed } := findWorker_update hids hw fun _ => rfl
  have hunref : workerUnref (updateWorker d w.id fun w => { w with state := .killed }) w.id =
      updateWorker d w.id fun w => { w with refcount := w.refcount-1, state := .killed } := by
    simp only [workerUnref,hkill,hc]
    exact updateWorker_updateWorker d w.id _ fun _ => rfl
  have htouch : touch (updateWorker d w.id fun w => { w with refcount := w.refcount-1, state := .killed })
      w.id = updateWorker d w.id fun w => { w with refcount := w.refcount-1, state := .killed } := by
    have hfind := findWorker_update hids hw
      (f := fun w => { w with refcount := w.refcount-1, state := .killed }) fun _ => rfl
    simp only [touch,hfind,Option.isNone_some,Bool.or_false]
  simp only [expire,hunref,htouch]
  refine (updateWorker_updateWorker (deleteEvent d i) w.id
    (f := fun w => { w with refcount := w.refcount-1, state := .killed }) _ fun _ => rfl).trans ?_
  exact updateWorker_congr (d := deleteEvent d i) hids hw (by simp [hc])

theorem Inv.expire {d : State} (h : Inv d) {w : Worker} (hw : w ∈ d.workers)
    (hu : unreaped d w.pid = true) {i : ℕ} (hi : w.event = some i) : Inv (expire d w i) := by
  rw [expire_eq h.ids hw (h.refcount_two hw hu hi)]
  refine h.settle (deleteEvent d i)
    { w with refcount := 1, state := .killed, event := none } hw rfl rfl rfl rfl rfl rfl
    (fun _ _ => rfl) (h.addresses.filter _) (fun _ => ?_) (fun _ => rfl) (fun _ => rfl)
    (fun hs => by simp at hs) (Or.inl rfl) fun j => ?_
  · have hu' : unreaped (deleteEvent d i) w.pid = true := hu
    simp [owed,hu']
  · exact (runs_delete d.queue i j).trans (by simp [hi,eq_comm])

theorem not_runs_of_queued {q : Queue} (hq : Addresses q) {e : Event} (he : e ∈ q.events)
    (hs : e.state = .queued) : ¬Runs q e.id := by
  rintro ⟨x,hx,hid,hr⟩
  rw [hq.eq_of_id hx he hid,hs] at hr
  cases hr

theorem Inv.start {d d' : State} (h : Inv d) {id : ℕ} {o : StartOracle}
    (ho : ∀ w ∈ d.workers, o.fork = some w.pid → unreaped d w.pid = true) (hstep : startEvent d id o = some d') : Inv d' := by
  obtain ⟨e,he,rfl,⟨_,rfl⟩ | ⟨hs,g,hg,hcases⟩⟩ := startEvent_cases hstep
  · exact h
  simp only at hcases
  set d₁ : State := { d with queue := (testBusy d.queue e).2, workers := d.workers.map g }
  have h₁ : Inv d₁ := h.frame hg rfl rfl rfl (fun _ _ => rfl) rfl
    (h.addresses.update (keeps_memo _) _) (runs_testBusy d.queue e)
  have hmem : ∃ x ∈ d₁.queue.events, x.id = e.id ∧ x.state = .queued :=
    ⟨_,List.mem_map_of_mem he,by simp [hs]⟩
  obtain ⟨x,hx,hxid,hxs⟩ := hmem
  have hnot : ¬Runs d₁.queue e.id := hxid ▸ not_runs_of_queued h₁.addresses hx hxs
  rcases hcases with rfl | rfl | ⟨_,⟨w,hw,hidle,rfl⟩ | ⟨pid,hfork,hfresh,rfl⟩⟩
  · exact h₁
  · refine h₁.frame kills_id (by simp [setEventState]) rfl rfl (fun _ _ => rfl) rfl
      (h₁.addresses.update (keeps_state _) _) fun i => ?_
    rw [← hxid]
    exact runs_requeue h₁.addresses hx hxs i
  · have hgw : (g w).id = w.id ∧ (g w).pid = w.pid ∧ (g w).event = w.event := by
      rcases hg w with hw | hw <;> simp [hw]
    have heq : Daemon.assign d₁ e.id w = Daemon.assign d₁ e.id (g w) := by
      simp [Daemon.assign,hgw]
    rw [heq]
    exact h₁.assign (List.mem_map_of_mem hw) (hgw.2.2.trans (h.idle w hw hidle)) ⟨x,hx,hxid⟩ hnot
  · refine h₁.forked ⟨x,hx,hxid⟩ hnot (List.forall_mem_map.mpr fun w hw heq => ?_)
    have hpid : w.pid = pid := by
      rw [← heq]
      rcases hg w with hw | hw <;> rw [hw]
    have := ho w hw (hfork.trans (by rw [hpid]))
    rw [hpid,hfresh] at this
    cases this

theorem reap_cases {d d' : State} {pid : ℕ} (h : step d (.reap pid) = some d') :
    ∃ p status, findProcess d pid = some p ∧ p.phase = .dead status ∧ unreaped d pid = true ∧
      d' = handleSigchld (withoutProcess d pid) pid status := by
  simp only [step] at h
  split at h
  · rename_i p status _ _ hp
    obtain ⟨hmem,hpid⟩ := findProcess_some hp
    exact ⟨_,status,hp,rfl,List.any_eq_true.mpr ⟨_,hmem,by simpa using hpid⟩,(Option.some.inj h).symm⟩
  · cases h

theorem returned_cases {d d' : State} (h : Inv d) (hstep : step d .returned = some d') :
    ∃ pid rest, d.messages = pid::rest ∧
      ((∀ w ∈ d.workers, w.pid ≠ pid) ∧ d' = { d with messages := rest } ∨
      ∃ w ∈ d.workers, w.pid = pid ∧ d' =
        settle (w.event.elim { d with messages := rest } (deleteEvent { d with messages := rest }))
          (returnedWorker w)) := by
  simp only [step] at hstep
  split at hstep
  · cases hstep
  rename_i pid rest hm
  refine ⟨pid,rest,hm,?_⟩
  cases hf : findPid { d with messages := rest } pid with
  | none =>
    refine Or.inl ⟨by simpa [findPid] using hf,?_⟩
    simpa [workerReturned,hf] using (Option.some.inj hstep).symm
  | some w =>
    obtain ⟨hw,hpid⟩ := findPid_some hf
    have h' : Inv { d with messages := rest } :=
      h.frame kills_id (by simp) rfl rfl (fun _ _ => rfl) rfl h.addresses fun _ => Iff.rfl
    exact Or.inr ⟨w,hw,hpid,(Option.some.inj hstep).symm.trans (workerReturned_eq h' hf)⟩

theorem expire_cases {d d' : State} {id : ℕ} (h : step d (.expire id) = some d') :
    ∃ w ∈ d.workers, w.id = id ∧ w.state = .running ∧ ∃ i, w.event = some i ∧ d' = expire d w i := by
  simp only [step] at h
  split at h
  · rename_i w hw
    obtain ⟨hmem,hid⟩ := findWorker_some hw
    split_ifs at h with hs
    obtain ⟨i,hi,rfl⟩ := Option.map_eq_some_iff.mp h
    exact ⟨w,hmem,hid,hs,i,hi,rfl⟩
  · cases h

/-- A timeout finds the process of its worker unreaped, and a new process does not
get the number of a reaped one whose worker is still in the list. -/
def Fresh (d : State) : Act → Prop
  | .expire id => ∀ w ∈ d.workers, w.id = id → unreaped d w.pid = true
  | .start _ o => ∀ w ∈ d.workers, o.fork = some w.pid → unreaped d w.pid = true
  | _ => True

theorem step_inv {d d' : State} {a : Act} (h : Inv d) (ha : Fresh d a) (hstep : step d a = some d') :
    Inv d' := by
  have hworker : ∀ pid b, workerStep d pid b = some d' → Inv d' := by
    intro pid b hb
    have hu := unreaped_workerStep hb
    obtain ⟨p,ms,_,rfl⟩ := workerStep_cases hb
    exact h.frame kills_id (by simp [setProcess]) rfl rfl (fun w _ => hu w.pid) rfl h.addresses
      fun _ => Iff.rfl
  cases a with
  | insert dev =>
    cases hstep
    exact h.frame kills_id (by simp) rfl rfl (fun _ _ => rfl) rfl (h.addresses.insert dev)
      (runs_insert d.queue dev)
  | start id o => exact h.start ha hstep
  | returned =>
    simp only [step] at hstep
    split at hstep
    · cases hstep
    · cases hstep
      refine Inv.workerReturned ?_ _
      exact h.frame kills_id (by simp) rfl rfl (fun _ _ => rfl) rfl h.addresses fun _ => Iff.rfl
  | reap pid =>
    obtain ⟨_,status,_,_,hu,rfl⟩ := reap_cases hstep
    exact h.reaped hu status
  | expire id =>
    obtain ⟨w,hw,hid,_,i,hi,rfl⟩ := expire_cases hstep
    exact h.expire hw (ha w hw hid) hi
  | kill =>
    cases hstep
    refine h.frame (g := fun w => { w with state := .killed }) (fun _ => Or.inr rfl) rfl rfl rfl
      (fun w _ => ?_) rfl h.addresses fun _ => Iff.rfl
    exact unreaped_map _ _ _ (fun p => by split_ifs <;> rfl) rfl w.pid
  | cleanup =>
    cases hstep
    exact h.frame kills_id (by simp) rfl rfl (fun _ _ => rfl) rfl (h.addresses.filter _)
      (runs_cleanup d.queue)
  | setMax n =>
    cases hstep
    exact h.frame kills_id (by simp) rfl rfl (fun _ _ => rfl) rfl h.addresses fun _ => Iff.rfl
  | fail _ _ | handled _ _ | leave _ | goOn _ | receive _ _ | readSigterm _ | pollFails _ | crash _ _ =>
    exact hworker _ _ hstep

end Workers
end Udev
