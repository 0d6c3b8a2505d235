import Udev.Settle
import Udev.WorkerLists

/-! The exit of udevd. From the moment SIGTERM or an exit message was handled no
event is taken in or started and no worker is forked; a loop that ends without
giving up leaves no event, no worker and no process behind. -/
namespace Udev
namespace MainLoop

open Runs EventQueue Daemon Workers Ownership WorkerLists

/-- Once the exit is asked for, the round it was asked in ends, and in the next one the
sources are closed and nothing but running events is left. -/
structure Exiting (s : State) : Prop where
  exit : s.udevExit = true
  point : s.point = .top ∧ s.closed = false ∨
    s.closed = true ∧ Quiet s.point ∧ ∀ e ∈ s.daemon.queue.events, e.state ≠ .queued

theorem round_exit (s : State) (opens : Bool) : (round s opens).udevExit = s.udevExit := by
  simp only [round]
  split_ifs <;> rfl

theorem round_exiting {s : State} (hs : s.udevExit = true) (opens : Bool) : Exiting (round s opens) := by
  refine ⟨(round_exit s opens).trans hs,Or.inr ?_⟩
  have hqueued : ∀ e ∈ (eventQueueCleanup s.daemon.queue .queued).events, e.state ≠ .queued := by
    intro e he
    have := (List.mem_filter.mp he).2
    simp only [decide_eq_true_eq] at this
    exact fun hst => this.2 hst.symm
  simp only [round,hs,if_true]
  split_ifs <;> exact ⟨rfl,trivial,hqueued⟩

theorem Exiting.quiet_step {s t : State} {a : Act} (hs : Exiting s) (h : step s a = some t)
    (hb : ∀ b ∈ daemonActs s a, ¬Begins b) (hx : t.udevExit = s.udevExit) (hc : t.closed = s.closed)
    (hp : s.closed = false → t.point = s.point) (hq : s.closed = true → Quiet s.point → Quiet t.point) :
    Exiting t ∧ Fewer s.daemon t.daemon := by
  have hfew := run_fewer hb (step_daemon h)
  refine ⟨⟨hx.trans hs.exit,?_⟩,hfew⟩
  rcases hs.point with ⟨htop,hcl⟩ | ⟨hcl,hquiet,hrun⟩
  · exact Or.inl ⟨(hp hcl).trans htop,hc.trans hcl⟩
  · exact Or.inr ⟨hc.trans hcl,hq hcl hquiet,fun e he => hrun e (hfew.1.subset he)⟩

theorem start_point {s : State} {a : MainAct} {id : ℕ} {o : StartOracle}
    (h : .start id o ∈ daemonActs s (.main a)) : a = .start o ∧ ∃ f es, s.point = .starting f (id::es) := by
  cases a with
  | start o' =>
    simp only [daemonActs] at h
    split at h
    · rename_i f j es hp
      cases List.mem_singleton.mp h
      exact ⟨rfl,f,es,hp⟩
    · simp at h
  | ctrl =>
    simp only [daemonActs] at h
    split at h
    · split_ifs at h
      · cases hc : s.conns.head? with
        | none => simp [hc] at h
        | some c =>
          rw [hc,Option.elim_some] at h
          rcases hm : c.2 with _ | m
          · simp [hm,daemonActs.ctrlActs] at h
          · rw [hm] at h
            cases m <;> simp only [daemonActs.ctrlActs] at h <;> (try split_ifs at h) <;> simp at h
      · simp at h
    · simp at h
  | round _ | timeout | config _ =>
    simp only [daemonActs] at h
    split_ifs at h <;> simp at h
  | hang _ | returned | receive _ =>
    simp only [daemonActs] at h
    split at h
    · split_ifs at h <;> simp at h
    · simp at h
  | reap pid => simp [daemonActs] at h
  | wake _ | interrupted | signal _ | inotify | leave => simp [daemonActs] at h

theorem Exiting.main {s t : State} {a : MainAct} (hs : Exiting s) (h : step s (.main a) = some t) :
    Exiting t ∧ Fewer s.daemon t.daemon := by
  have hinside : s.point ≠ .top → s.closed = true ∧ Quiet s.point := fun hne => by
    rcases hs.point with ⟨htop,_⟩ | ⟨hcl,hq,_⟩
    · exact absurd htop hne
    · exact ⟨hcl,hq⟩
  rcases mainStep_cases h with ⟨opens,rfl,hp,rfl⟩ | ⟨unusable,f,rfl,hp,rfl⟩ | ⟨f,rfl,hp,rfl⟩ |
    ⟨g,rfl,hp,rfl⟩ | hin
  · refine ⟨round_exiting hs.exit opens,run_fewer (fun b hb => ?_) (step_daemon h)⟩
    simp only [daemonActs_round,hs.exit,if_true,List.mem_cons,List.not_mem_nil,or_false] at hb
    rcases hb with rfl | rfl <;> exact id
  · obtain ⟨hcl,hq⟩ := hinside (by simp [hp])
    have hno : f.isNetlink = false := by simpa [Quiet,hp] using (show Quiet (.netlink f) from hp ▸ hq).1
    have heq : receiveDevice { s with point := .start f } f unusable = { s with point := .start f } := by
      simp [receiveDevice,hno]
    rw [heq] at h ⊢
    refine hs.quiet_step h (by simp [daemonActs_receive hp,hno]) rfl rfl (by simp [hcl]) fun _ hq => ?_
    simpa [Quiet,hp] using hq
  · obtain ⟨hcl,hq⟩ := hinside (by simp [hp])
    have hno : f.isCtrl = false := (show Quiet (.ctrl f) from hp ▸ hq).2
    have heq : acceptCtrl { s with point := .top } f = { s with point := .top } := by simp [acceptCtrl,hno]
    rw [heq] at h ⊢
    exact hs.quiet_step h (by simp [daemonActs_ctrl hp,hno]) rfl rfl (by simp [hcl]) fun _ _ => trivial
  · obtain ⟨hcl,_⟩ := hinside (by simp [hp])
    exact hs.quiet_step h (fun _ hb => absurd hb List.not_mem_nil) rfl rfl (by simp [hcl]) fun _ _ => trivial
  · obtain ⟨hcl,hq⟩ := hinside hin.inside.1
    have hclosed : t.closed = s.closed := by rw [hin.frame]
    refine hs.quiet_step h (fun b hb hbeg => ?_) ?_ hclosed (by simp [hcl]) (hin.quiet hs.exit)
    · cases b with
      | insert dev => exact hin.acts _ hb dev rfl
      | start id o =>
        obtain ⟨_,f,es,hp⟩ := start_point hb
        simp [hp,Quiet] at hq
      | _ => exact hbeg
    · rcases hin.exit with hx | ⟨hx,_⟩
      · exact hx
      · exact hx.trans hs.exit.symm

theorem Exiting.step {s t : State} {a : Act} (hs : Exiting s) (h : step s a = some t) :
    Exiting t ∧ Fewer s.daemon t.daemon := by
  rcases main_or_outer a with ⟨m,rfl⟩ | ha
  · exact hs.main h
  · obtain ⟨hframe,hacts⟩ := outer_frame ha h
    refine hs.quiet_step h (fun b hb hbeg => ?_) ?_ ?_ (fun _ => ?_) fun _ hq => ?_
    · have := hacts b hb
      cases b <;> first | exact hbeg | simp [isWorkerAct] at this
    all_goals rw [hframe]
    exact hq

/-- Before the exit is asked for the sources are open, and the request ends the round. -/
theorem step_running {s t : State} {a : Act} (hs : s.udevExit = false) (h : step s a = some t) :
    t.closed = s.closed ∧ (t.udevExit = true → t.point = .top) := by
  have hsame : t.udevExit = s.udevExit → t.udevExit = true → t.point = .top := fun hx ht => by
    simp [hx,hs] at ht
  rcases main_or_outer a with ⟨m,rfl⟩ | ha
  · rcases mainStep_cases h with ⟨opens,_,hp,rfl⟩ | ⟨unusable,f,_,_,rfl⟩ | ⟨f,_,_,rfl⟩ | ⟨g,_,_,rfl⟩ | hin
    · refine ⟨?_,hsame (round_exit s opens)⟩
      simp only [round,hs,Bool.false_eq_true,if_false,false_and]
      split_ifs <;> rfl
    · rw [receiveDevice_frame]
      exact ⟨rfl,fun ht => by simp [hs] at ht⟩
    · obtain ⟨_,_,_,hp,hc⟩ := acceptCtrl_frame { s with point := .top } f
      exact ⟨hc,fun _ => hp⟩
    · exact ⟨rfl,hsame rfl⟩
    · refine ⟨by rw [hin.frame],?_⟩
      rcases hin.exit with hx | ⟨_,hp⟩
      · exact hsame hx
      · exact fun _ => hp
  · rw [(outer_frame ha h).1]
    exact ⟨rfl,fun ht => by simp [hs] at ht⟩

/-- The sources are closed only on exit, and then the loop is on its way out. -/
structure Sound (s : State) : Prop where
  exiting : s.udevExit = true → Exiting s
  opened : s.udevExit = false → s.closed = false

theorem Sound.step {s t : State} {a : Act} (hs : Sound s) (h : step s a = some t) : Sound t := by
  cases hx : s.udevExit with
  | true =>
    have ht := ((hs.exiting hx).step h).1
    exact ⟨fun _ => ht,fun hf => by simp [ht.exit] at hf⟩
  | false =>
    obtain ⟨hc,htop⟩ := step_running hx h
    have hcl := hc.trans (hs.opened hx)
    exact ⟨fun ht => ⟨ht,Or.inl ⟨htop ht,hcl⟩⟩,fun _ => hcl⟩

theorem reachable_sound {s : State} {as : List Act} (hs : run step {} as = some s) : Sound s :=
  run_invariant Sound (fun _ _ _ hs _ h => hs.step h) ⟨fun h => absurd h (by decide),fun _ => rfl⟩
    (along_true _ as) hs

/-- Once SIGTERM or an exit message was handled, the exit stays asked for, every event left is
one that was there, every worker left is one that was there, and from the head of the
next round on no event is waiting to be started. -/
theorem exit_takes_nothing {s t : State} {as bs : List Act} (hs : run step {} as = some s)
    (hexit : s.udevExit = true) (ht : run step s bs = some t) :
    t.udevExit = true ∧ t.daemon.queue.events.Sublist s.daemon.queue.events ∧
      (t.daemon.workers.map ident).Sublist (s.daemon.workers.map ident) ∧
      (t.point = .top ∧ t.closed = false ∨ ∀ e ∈ t.daemon.queue.events, e.state ≠ .queued) := by
  have hinv := run_invariant (fun u => Exiting u ∧ Fewer s.daemon u.daemon)
    (fun _ _ _ hu _ h => ⟨(hu.1.step h).1,hu.2.trans (hu.1.step h).2⟩)
    ⟨(reachable_sound hs).exiting hexit,Fewer.refl s.daemon⟩ (along_true _ bs) ht
  obtain ⟨⟨hx,hp⟩,hevents,hworkers⟩ := hinv
  exact ⟨hx,hevents,hworkers,hp.imp_right fun h => h.2.2⟩

/-- A round in which nothing is reported but what `f` says; the loops in it are empty. -/
def quietRound (f : Flags) (acts : List Act) : List Act :=
  [.main (.round true), .main (.wake f), .main (.config false)] ++ acts

/-- An event runs and a second one waits behind it when SIGTERM comes; the worker finishes
the first one and is reaped. -/
def exitRun : List Act × List Act :=
  ([.uevent { seqnum := 1, devpath := str "/block/sda" }] ++ deviceRound 100 [0] ++
    [.uevent { seqnum := 2, devpath := str "/block/sda/sda1" }] ++ deviceRound 101 [0,1] ++ [.raise .term] ++
    quietRound { isSignal := true } [.main .returned, .main (.receive false), .main (.start {}),
      .main (.start {}), .main (.start {}), .main (.start {}), .main (.signal (some .term))],
   quietRound {} [.main .returned, .main (.receive false), .main (.start {}), .main (.signal none)] ++
    [.worker (.handled 100 true), .worker (.leave 100)] ++
    quietRound { isWorker := true, isSignal := true } [.main .returned, .main .returned, .main (.receive false),
      .main (.start {}), .main (.signal (some .chld)), .main (.reap (some 100)), .main (.reap none)] ++
    [.main (.round true), .main .leave])

theorem exit_takes_nothing_disk :
    ∃ s t, run step {} exitRun.1 = some s ∧ run step s exitRun.2 = some t ∧
      s.daemon.queue.events.map (·.state) = [.running,.queued] ∧
      t.daemon.queue.events.Sublist s.daemon.queue.events :=
  ⟨_,_,rfl,rfl,rfl,(exit_takes_nothing (show run step {} exitRun.1 = some _ from rfl)
    rfl (show run step _ exitRun.2 = some _ from rfl)).2.1⟩

def Attached (d : Daemon.State) : Prop := ∀ p ∈ d.procs.map (·.pid), p ∈ d.workers.map (·.pid)

theorem step_attached {d d' : Daemon.State} {a : Daemon.Act} (h : Workers.Inv d) (hat : Attached d)
    (ha : Timely d a) (hstep : Daemon.step d a = some d') : Attached d' := by
  by_cases hbeg : ∃ id o, a = .start id o
  · obtain ⟨id,o,rfl⟩ := hbeg
    obtain ⟨new,hworkers,hprocs⟩ := start_idents hstep
    have hpids : d'.workers.map (·.pid) = d.workers.map (·.pid) ++ new.map Prod.snd := by
      simpa [List.map_map,Function.comp_def,ident] using congrArg (List.map Prod.snd) hworkers
    intro p hp
    rw [hprocs] at hp
    rw [hpids]
    exact (List.mem_append.mp hp).elim (fun hp => List.mem_append_left _ (hat p hp)) (List.mem_append_right _)
  have hsub : (d'.procs.map (·.pid)).Sublist (d.procs.map (·.pid)) ∧
      (d'.workers.map ident).Sublist (d.workers.map ident) := by
    by_cases hins : ∃ dev, a = .insert dev
    · obtain ⟨dev,rfl⟩ := hins
      cases hstep
      exact ⟨List.Sublist.refl _,List.Sublist.refl _⟩
    · have hno : ¬Begins a := fun hb => by
        cases a with
        | insert dev => exact hins ⟨dev,rfl⟩
        | start id o => exact hbeg ⟨id,o,rfl⟩
        | _ => exact hb
      exact ⟨step_procs hno hstep,(step_fewer hno hstep).2⟩
  intro pid hp
  obtain ⟨w,hw,rfl⟩ := List.mem_map.mp (hat pid (hsub.1.subset hp))
  have hu : unreaped d' w.pid = true := by
    obtain ⟨p,hp,hpid⟩ := List.mem_map.mp hp
    exact List.any_eq_true.mpr ⟨p,hp,by simpa using hpid⟩
  have hkept : ¬Freed d' w := fun hf => by
    have := (step_frees h ha hstep hw hf).1
    simp [hu] at this
  obtain ⟨v,hv,hvid⟩ := List.mem_map.mp (not_not.mp hkept)
  obtain ⟨u,hu,hident⟩ := List.mem_map.mp (hsub.2.subset (List.mem_map_of_mem hv))
  have huw : u = w := h.eq_of_id hu hw ((congrArg Prod.fst hident).trans hvid)
  exact List.mem_map.mpr ⟨v,hv,by rw [← huw]; exact (congrArg Prod.snd hident).symm⟩

/-- A condition on the steps of the daemon, for the steps of the loop. -/
def Lifted (ok : Daemon.State → Daemon.Act → Prop) (s : State) (a : Act) : Prop :=
  Along Daemon.step ok s.daemon (daemonActs s a)

instance decidableLifted (ok : Daemon.State → Daemon.Act → Prop) [∀ d a, Decidable (ok d a)] (s : State) (a : Act) :
    Decidable (Lifted ok s a) :=
  inferInstanceAs (Decidable (Along Daemon.step ok s.daemon (daemonActs s a)))

theorem lifted_along {ok : Daemon.State → Daemon.Act → Prop} {s t : State} {as : List Act}
    (hok : Along step (Lifted ok) s as) (h : run step s as = some t) :
    Along Daemon.step ok s.daemon (trace step daemonActs s as) :=
  along_trace State.daemon (fun _ => True) (fun _ _ _ => step_daemon)
    (fun _ _ _ _ hok _ => ⟨trivial,hok⟩) trivial hok h

/-- Where the loop was left in good order, no event and no worker is left. -/
def Left (s : State) : Prop := s.point = .left false ∨ s.point = .exited false

def Clean (s : State) : Prop := Left s → s.daemon.queue.events = [] ∧ s.daemon.children = 0

theorem run_workerActs {d d' : Daemon.State} {bs : List Daemon.Act} (hb : ∀ b ∈ bs, isWorkerAct b = true)
    (h : run Daemon.step d bs = some d') : d'.queue = d.queue ∧ d'.children = d.children := by
  refine run_invariant (fun u => u.queue = d.queue ∧ u.children = d.children)
    (fun u b v hu hb hstep => ?_) ⟨rfl,rfl⟩
    (along_of_forall (fun _ b => isWorkerAct b = true) (fun b hmem _ => hb b hmem) d) h
  have hworker : ∀ pid c, workerStep u pid c = some v → v.queue = d.queue ∧ v.children = d.children := by
    intro pid c hc
    obtain ⟨p,ms,_,rfl⟩ := workerStep_cases hc
    exact hu
  cases b with
  | fail _ _ | handled _ _ | leave _ | goOn _ | receive _ _ | readSigterm _ | pollFails _ | crash _ _ =>
    exact hworker _ _ hstep
  | _ => cases hb

theorem round_clean (s : State) (opens : Bool) : Clean (round s opens) := by
  intro hleft
  simp only [round] at hleft ⊢
  split_ifs at hleft ⊢ <;> simp_all [Left]

theorem Clean.step {s t : State} {a : Act} (hs : Clean s) (h : step s a = some t) : Clean t := by
  rcases main_or_outer a with ⟨m,rfl⟩ | ha
  · rcases mainStep_cases h with ⟨opens,_,_,rfl⟩ | ⟨unusable,f,_,_,rfl⟩ | ⟨f,_,_,rfl⟩ | ⟨g,_,hp,rfl⟩ | hin
    · exact round_clean s opens
    · rw [receiveDevice_frame]
      exact fun hleft => by simp [Left] at hleft
    · obtain ⟨_,_,_,hp,_⟩ := acceptCtrl_frame { s with point := .top } f
      exact fun hleft => by simp [Left,hp] at hleft
    · exact fun hleft => hs (Or.inl (by simpa [Left,hp] using hleft))
    · exact fun hleft => (hleft.elim hin.left.1 (hin.left.2 false)).elim
  · obtain ⟨hframe,hacts⟩ := outer_frame ha h
    obtain ⟨hq,hc⟩ := run_workerActs hacts (step_daemon h)
    have hp : t.point = s.point := by rw [hframe]
    exact fun hleft => by
      rw [hq,hc]
      exact hs (by simpa only [Left,hp] using hleft)

/-- When udevd leaves its loop without giving up, all events are done, all workers are freed,
and every process that was ever forked is reaped, along every run of timely steps. -/
theorem leaves_nothing {s : State} {as : List Act} (hok : Along step (Lifted Timely) {} as)
    (hs : run step {} as = some s) (hleft : s.point = .left false ∨ s.point = .exited false) :
    s.daemon.queue.events = [] ∧ s.daemon.workers = [] ∧ s.daemon.procs = [] := by
  have hclean : Clean s := run_invariant Clean (fun _ _ _ hs _ h => hs.step h)
    (fun h => by simp [Left] at h) (along_true _ as) hs
  obtain ⟨hevents,hchildren⟩ := hclean hleft
  have hinv : Workers.Inv s.daemon ∧ Attached s.daemon := run_invariant
    (fun d => Workers.Inv d ∧ Attached d)
    (fun _ _ _ hd ha h => ⟨step_inv hd.1 ha.fresh h,step_attached hd.1 hd.2 ha h⟩)
    ⟨inv_init,by simp [Attached]⟩ (lifted_along hok hs) (run_daemon hs)
  have hworkers : s.daemon.workers = [] := by
    have := hinv.1.children
    exact List.eq_nil_of_length_eq_zero (by omega)
  refine ⟨hevents,hworkers,List.eq_nil_iff_forall_not_mem.mpr fun p hp => ?_⟩
  have := hinv.2 p.pid (List.mem_map_of_mem hp)
  simp [hworkers] at this

theorem leaves_nothing_disk :
    ∃ s, run step {} (exitRun.1 ++ exitRun.2) = some s ∧ s.point = .exited false ∧ s.daemon.procs = [] :=
  ⟨_,rfl,rfl,(leaves_nothing (by decide) (show run step {} (exitRun.1 ++ exitRun.2) = some _ from rfl)
    (Or.inr rfl)).2.2⟩

end MainLoop
end Udev
