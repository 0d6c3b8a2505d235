import Udev.MainLoop

/-! What a success of `udevadm settle` says about the event queue. The queue file is
written at the head of a round only, and a ping is answered at its end; so the
success covers the events that were taken in before the round of the answer. -/
namespace Udev
namespace MainLoop

open Runs EventQueue Daemon Ownership

theorem step_addresses {d d' : Daemon.State} {a : Daemon.Act} (hd : Addresses d.queue)
    (h : Daemon.step d a = some d') : Addresses d'.queue := by
  rcases Serialization.step_queue h with ⟨dev,_,hq⟩ | ⟨e,_,hq⟩ | ⟨p,hq⟩
  · exact hq ▸ hd.insert dev
  · have hbusy := hd.update (keeps_memo (isDevpathBusy e d.queue.events).2) e.id
    rcases hq with hq | hq | ⟨_,hq⟩ <;> rw [hq]
    · exact hbusy
    · exact hbusy.update (keeps_state _) _
    · exact hbusy.update (keeps_state _) _
  · exact hq ▸ hd.filter p

theorem run_addresses {s : State} {as : List Act} (h : run step {} as = some s) : Addresses s.daemon.queue :=
  run_invariant (fun d => Addresses d.queue) (fun _ _ _ hs _ h => step_addresses hs h) Addresses.empty
    (along_true _ _) (run_daemon h)

/-- The main process can write the queue file whenever it tries. -/
def Opens (_ : State) : Act → Prop
  | .main (.round opens) => opens = true
  | _ => True

instance decidableOpens (s : State) : (a : Act) → Decidable (Opens s a)
  | .main (.round opens) => inferInstanceAs (Decidable (opens = true))
  | .main (.wake _) | .main .interrupted | .main .timeout | .main (.hang _) | .main (.config _)
  | .main .returned | .main (.receive _) | .main (.start _) | .main (.signal _) | .main (.reap _)
  | .main .inotify | .main .ctrl | .main .leave | .worker _ | .uevent _ | .raise _ | .connect _
  | .settle _ | .settleStep .. => isTrue trivial

/-- The main process gave up waiting for its workers and left the loop. -/
def GaveUp (s : State) : Prop := s.point = .left true ∨ s.point = .exited true

/-- The events at the given addresses are gone, unless the main process gave up. -/
def Gone (es : List ℕ) (s : State) : Prop := (∀ i ∈ es, Removed s.daemon.queue i) ∨ GaveUp s

def Told (es : List ℕ) (s : State) : Prop := s.queueFile = false → Gone es s

/-- The ping of the client is not yet answered. -/
def Waits (c : ℕ) (s : State) : Prop := s.settles.lookup c = some .pinging ∧ c ∉ s.answered

/-- Addresses are handed out in order, and that of a removed event is never used again. -/
theorem step_kept {s t : State} {a : Act} (h : step s a = some t) :
    s.daemon.queue.nextId ≤ t.daemon.queue.nextId ∧
      ∀ i < s.daemon.queue.nextId, Removed s.daemon.queue i → Removed t.daemon.queue i := by
  have hrun := step_daemon h
  refine ⟨?_,fun i hi hr => run_removed hrun hi hr⟩
  exact run_invariant (fun d => s.daemon.queue.nextId ≤ d.queue.nextId)
    (fun _ _ _ hs _ hst => hs.trans (step_removed hst).1) le_rfl (along_true _ _) hrun

theorem gaveUp_step {s t : State} {a : Act} (h : step s a = some t) (hs : GaveUp s) : GaveUp t := by
  rcases main_or_outer a with ⟨m,rfl⟩ | ha
  · rcases mainStep_cases h with ⟨_,_,hp,_⟩ | ⟨_,_,_,hp,_⟩ | ⟨_,_,hp,_⟩ | ⟨g,_,hp,rfl⟩ | hin
    · simp [GaveUp,hp] at hs
    · simp [GaveUp,hp] at hs
    · simp [GaveUp,hp] at hs
    · exact Or.inr (by simpa [GaveUp,hp] using hs)
    · have := hin.inside.2 true
      rcases hs with hs | hs <;> simp [hs] at this
  · rw [(outer_frame ha h).1]
    exact hs

/-- What is known of the client `c` and the events at the addresses `es`, from the head
of a round at which its ping was not yet answered on. -/
structure Heard (es : List ℕ) (c : ℕ) (s : State) : Prop where
  below : ∀ i ∈ es, i < s.daemon.queue.nextId
  known : c < s.nextClient
  told : Told es s ∨ s.point = .top ∧ Waits c s ∨ s.settles.lookup c = some (.done .noConnection)
  done : s.settles.lookup c = some (.done .empty) → Gone es s
  left : s.point = .left false → ∀ i ∈ es, Removed s.daemon.queue i

section Steps

variable {es : List ℕ} {c : ℕ} {s t : State} {a : Act}

theorem Heard.gone (hs : Heard es c s) (h : step s a = some t) (hg : Gone es s) : Gone es t :=
  hg.imp (fun hr i hi => (step_kept h).2 i (hs.below i hi) (hr i hi)) (gaveUp_step h)

theorem Heard.below_step (hs : Heard es c s) (h : step s a = some t) : ∀ i ∈ es, i < t.daemon.queue.nextId :=
  fun i hi => (hs.below i hi).trans_le (step_kept h).1

theorem Heard.keep (hs : Heard es c s) (h : step s a = some t) (hf : t.queueFile = s.queueFile)
    (hl : t.settles.lookup c = s.settles.lookup c) (hn : s.nextClient ≤ t.nextClient)
    (hp : t.point = s.point ∧ t.answered = s.answered ∨ s.point ≠ .top ∧ t.point ≠ .left false) :
    Heard es c t where
  below := hs.below_step h
  known := hs.known.trans_le hn
  told := by
    rcases hs.told with htold | ⟨htop,hw⟩ | hno
    · exact Or.inl fun hq => hs.gone h (htold (hf ▸ hq))
    · rcases hp with ⟨hp,ha⟩ | ⟨hne,_⟩
      · exact Or.inr (Or.inl ⟨hp.trans htop,hl.trans hw.1,ha ▸ hw.2⟩)
      · exact absurd htop hne
    · exact Or.inr (Or.inr (hl.trans hno))
  done hd := hs.gone h (hs.done (hl ▸ hd))
  left hleft := by
    rcases hp with ⟨hp,_⟩ | ⟨_,hne⟩
    · exact fun i hi => (step_kept h).2 i (hs.below i hi) (hs.left (hp ▸ hleft) i hi)
    · exact absurd hleft hne

theorem removed_of_nil {q : Queue} (h : q.events = []) (i : ℕ) : Removed q i := by simp [Removed,h]

/-- The head of a round writes the file that tells of the events that are left. -/
theorem round_file (s : State) :
    ((round s true).queueFile = false ∨ (round s true).point = .left false →
      (round s true).daemon.queue.events = []) ∧
      (round s true).settles = s.settles ∧ (round s true).nextClient = s.nextClient := by
  simp only [round]
  split_ifs <;> simp_all

theorem Heard.round (hs : Heard es c s) (h : step s (.main (.round true)) = some (round s true)) :
    Heard es c (round s true) := by
  obtain ⟨hfile,hl,hn⟩ := round_file s
  refine ⟨hs.below_step h,hn ▸ hs.known,Or.inl fun hq => Or.inl fun i _ => ?_,fun hd => ?_,fun hp i _ => ?_⟩
  · exact removed_of_nil (hfile (Or.inl hq)) i
  · exact hs.gone h (hs.done (hl ▸ hd))
  · exact removed_of_nil (hfile (Or.inr hp)) i

theorem acceptCtrl_frame (s : State) (f : Flags) :
    (acceptCtrl s f).queueFile = s.queueFile ∧ (acceptCtrl s f).settles = s.settles ∧
      (acceptCtrl s f).nextClient = s.nextClient ∧ (acceptCtrl s f).point = s.point ∧
      (acceptCtrl s f).closed = s.closed := by
  rcases acceptCtrl_cases s f with heq | ⟨id,msg,rest,_,_,heq⟩ <;> rw [heq]
  · simp
  · obtain ⟨d,_,_,_,_,_,heq | heq⟩ := handleCtrlMsg_frame { s with conns := rest } id msg <;> rw [heq] <;> simp

theorem receiveDevice_frame (s : State) (f : Flags) (unusable : Bool) :
    receiveDevice s f unusable = { s with
      daemon := (receiveDevice s f unusable).daemon, netlink := (receiveDevice s f unusable).netlink } := by
  unfold receiveDevice
  by_cases hf : f.isNetlink = true
  · simp only [hf,if_true]
    cases s.netlink <;> rfl
  · simp [hf]

/-- After the loop the file is gone, with the events or because the main process gave up. -/
theorem Heard.leave (hs : Heard es c s) {gaveUp : Bool} (hp : s.point = .left gaveUp)
    (h : step s (.main .leave) = some t) (ht : t = { s with
      queueFile := false, answered := s.ctrlConn.toList ++ s.answered, ctrlConn := none
      point := .exited gaveUp }) : Heard es c t := by
  have hgone : Gone es t := by
    subst ht
    cases gaveUp with
    | true => exact Or.inr (Or.inr rfl)
    | false => exact Or.inl (hs.left hp)
  refine ⟨hs.below_step h,?_,Or.inl fun _ => hgone,fun _ => hgone,?_⟩
  · rw [ht]
    exact hs.known
  · simp [ht]

theorem Heard.main (hs : Heard es c s) {a : MainAct} (hok : Opens s (.main a)) (h : step s (.main a) = some t) :
    Heard es c t := by
  rcases mainStep_cases h with ⟨opens,rfl,hp,rfl⟩ | ⟨unusable,f,rfl,hp,rfl⟩ | ⟨f,rfl,hp,rfl⟩ |
    ⟨g,rfl,hp,ht⟩ | hin
  · have htrue : opens = true := hok
    subst htrue
    exact hs.round h
  · have hframe := receiveDevice_frame { s with point := .start f } f unusable
    refine hs.keep h ?_ ?_ ?_ (Or.inr ⟨by simp [hp],?_⟩) <;> rw [hframe]
    simp
  · obtain ⟨hf,hl,hn,hpt,_⟩ := acceptCtrl_frame { s with point := .top } f
    exact hs.keep h hf (by rw [hl]) hn.ge (Or.inr ⟨by simp [hp],by simp [hpt]⟩)
  · exact hs.leave hp h ht
  · refine hs.keep h ?_ ?_ ?_ (Or.inr ⟨hin.inside.1,hin.left.1⟩) <;> rw [hin.frame]

theorem lookup_update {α : Type*} (l : List (ℕ × α)) (id k : ℕ) (x : α) :
    (l.map fun c => if c.1 = id then (id,x) else c).lookup k =
      if k = id then (l.lookup id).map fun _ => x else l.lookup k := by
  induction l with
  | nil => simp
  | cons c l ih =>
    obtain ⟨i,y⟩ := c
    by_cases hi : i = id
    · subst hi
      by_cases hk : k = i
      · simp [hk]
      · have hne : (k == i) = false := by simpa using hk
        simpa [List.lookup_cons,hk,hne] using ih
    · by_cases hki : k = i
      · subst hki
        simp [hi]
      · have hne : (k == i) = false := by simpa using hki
        have hni : (id == i) = false := by simpa using Ne.symm hi
        simpa [List.lookup_cons,hi,hne,hni] using ih

/-- A client that no longer waits for its ping can trust the queue file. -/
theorem Heard.answered (hs : Heard es c s) {p : Settle} (hp : s.settles.lookup c = some p)
    (hw : p = .pinging → c ∈ s.answered) (hno : p ≠ .done .noConnection) : Told es s := by
  rcases hs.told with htold | ⟨_,hping,hnot⟩ | hgave
  · exact htold
  · exact absurd (hw (Option.some.inj (hp.symm.trans hping))) hnot
  · exact absurd (Option.some.inj (hp.symm.trans hgave)) hno

/-- A step of the client itself: it leaves the wait for its ping only when it is
answered or gives up, and finds the queue empty only without the file. -/
theorem Heard.client (hs : Heard es c s) {b : Bool} (h : step s (.settleStep c b) = some t) : Heard es c t := by
  have hh := h
  obtain ⟨p,hp,h⟩ := Option.bind_eq_some_iff.mp h
  obtain ⟨q,hq,rfl⟩ := Option.map_eq_some_iff.mp h
  have hlook : (s.settles.map fun k => if k.1 = c then (c,q) else k).lookup c = some q := by
    rw [lookup_update,if_pos rfl,hp,Option.map_some]
  have hleft : s.point = .left false → ∀ i ∈ es, Removed s.daemon.queue i := hs.left
  have htold : Told es s → ((q = .done .empty) → s.queueFile = false) → Heard es c
      { s with settles := s.settles.map fun k => if k.1 = c then (c,q) else k } := fun ht hempty =>
    ⟨hs.below,hs.known,Or.inl fun hf => hs.gone hh (ht hf),
      fun hd => hs.gone hh (ht (hempty (Option.some.inj (hlook.symm.trans hd)))),hleft⟩
  cases p with
  | pinging =>
    cases b with
    | false =>
      obtain rfl := Option.some.inj hq
      refine ⟨hs.below,hs.known,Or.inr (Or.inr hlook),fun hd => ?_,hleft⟩
      cases Option.some.inj (hlook.symm.trans hd)
    | true =>
      simp only [settleStep,if_true] at hq
      split_ifs at hq with hans
      obtain rfl := Option.some.inj hq
      exact htold (hs.answered hp (fun _ => hans) (by simp)) (by simp)
  | opening =>
    obtain rfl := Option.some.inj hq
    exact htold (hs.answered hp (by simp) (by simp)) (by cases b <;> simp)
  | checking =>
    obtain rfl := Option.some.inj hq
    refine htold (hs.answered hp (by simp) (by simp)) ?_
    cases b <;> cases s.queueFile <;> simp
  | done o => cases hq

theorem Heard.step (hs : Heard es c s) (hok : Opens s a) (h : step s a = some t) : Heard es c t := by
  have hh := h
  cases a with
  | main a => exact hs.main hok h
  | worker a =>
    simp only [MainLoop.step] at h
    split_ifs at h
    obtain ⟨d,_,rfl⟩ := Option.map_eq_some_iff.mp h
    split_ifs at hh ⊢ <;> exact hs.keep hh rfl rfl le_rfl (Or.inl ⟨rfl,rfl⟩)
  | uevent dev =>
    simp only [MainLoop.step] at h
    split_ifs at h
    cases h
    exact hs.keep hh rfl rfl le_rfl (Or.inl ⟨rfl,rfl⟩)
  | raise sig => cases h; exact hs.keep hh rfl rfl le_rfl (Or.inl ⟨rfl,rfl⟩)
  | connect msg => cases h; exact hs.keep hh rfl rfl (Nat.le_succ _) (Or.inl ⟨rfl,rfl⟩)
  | settle pings =>
    cases h
    refine hs.keep hh rfl ?_ (Nat.le_succ _) (Or.inl ⟨rfl,rfl⟩)
    have hne : (c == s.nextClient) = false := by simpa using hs.known.ne
    simp [List.lookup_append,List.lookup_cons,hne]
  | settleStep id b =>
    by_cases hid : id = c
    · subst hid
      exact hs.client h
    · obtain ⟨p,_,h⟩ := Option.bind_eq_some_iff.mp h
      obtain ⟨q,_,rfl⟩ := Option.map_eq_some_iff.mp h
      refine hs.keep hh rfl ?_ le_rfl (Or.inl ⟨rfl,rfl⟩)
      simp only [lookup_update,if_neg (Ne.symm hid)]

end Steps

theorem mainStep_settles {s t : State} {a : MainAct} (h : mainStep s a = some t) :
    t.settles = s.settles ∧ t.nextClient = s.nextClient := by
  rcases mainStep_cases h with ⟨opens,_,_,rfl⟩ | ⟨unusable,f,_,_,rfl⟩ | ⟨f,_,_,rfl⟩ | ⟨g,_,_,rfl⟩ | hin
  · simp only [round]
    split_ifs <;> exact ⟨rfl,rfl⟩
  · rw [receiveDevice_frame]
    exact ⟨rfl,rfl⟩
  · have hframe := acceptCtrl_frame { s with point := .top } f
    exact ⟨hframe.2.1,hframe.2.2.1⟩
  · exact ⟨rfl,rfl⟩
  · rw [hin.frame]
    exact ⟨rfl,rfl⟩

theorem step_known {s t : State} {a : Act} (hs : ∀ k ∈ s.settles, k.1 < s.nextClient)
    (h : step s a = some t) : ∀ k ∈ t.settles, k.1 < t.nextClient := by
  cases a with
  | main a =>
    obtain ⟨hl,hn⟩ := mainStep_settles h
    rwa [hl,hn]
  | worker a =>
    simp only [step] at h
    split_ifs at h
    obtain ⟨d,_,rfl⟩ := Option.map_eq_some_iff.mp h
    split_ifs <;> exact hs
  | uevent dev =>
    simp only [step] at h
    split_ifs at h
    cases h
    exact hs
  | raise sig => cases h; exact hs
  | connect msg => cases h; exact fun k hk => (hs k hk).trans (Nat.lt_succ_self _)
  | settle pings =>
    cases h
    intro k hk
    rcases List.mem_append.mp hk with hk | hk
    · exact (hs k hk).trans (Nat.lt_succ_self _)
    · simp [List.mem_singleton.mp hk]
  | settleStep id b =>
    obtain ⟨p,hp,h⟩ := Option.bind_eq_some_iff.mp h
    obtain ⟨q,_,rfl⟩ := Option.map_eq_some_iff.mp h
    refine List.forall_mem_map.mpr fun k hk => ?_
    split_ifs with hid
    · exact hid ▸ hs k hk
    · exact hs k hk

theorem mem_of_lookup {α : Type*} {l : List (ℕ × α)} {k : ℕ} {x : α} (h : l.lookup k = some x) :
    (k,x) ∈ l := by
  obtain ⟨l₁,l₂,rfl,_⟩ := List.lookup_eq_some_iff.mp h
  simp

theorem Waits.known {s : State} {as : List Act} {c : ℕ} (hs : run step {} as = some s) (hc : Waits c s) :
    c < s.nextClient :=
  run_invariant (fun s => ∀ k ∈ s.settles, k.1 < s.nextClient) (fun _ _ _ hs _ h => step_known hs h)
    (by simp) (along_true _ as) hs _ (mem_of_lookup hc.1)

/-- When `udevadm settle` finds the queue empty after its ping was answered, all events that
were in the queue at the head of any round before the answer are gone, unless the main
process gave up waiting for its workers when it left. -/
theorem settle_waits {s t : State} {as bs : List Act} {c : ℕ} (hs : run step {} as = some s)
    (htop : s.point = .top) (hc : Waits c s) (hok : Along step Opens s bs) (ht : run step s bs = some t)
    (hdone : t.settles.lookup c = some (.done .empty)) :
    (∀ e ∈ s.daemon.queue.events, Removed t.daemon.queue e.id) ∨ GaveUp t := by
  have hnot : ∀ o, s.settles.lookup c ≠ some (.done o) := fun o h => by
    cases Option.some.inj (hc.1.symm.trans h)
  have hheard : Heard (s.daemon.queue.events.map (·.id)) c s :=
    { below := List.forall_mem_map.mpr (run_addresses hs).fresh
      known := hc.known hs
      told := Or.inr (Or.inl ⟨htop,hc⟩)
      done := fun h => absurd h (hnot .empty)
      left := fun h => by simp [htop] at h }
  have hend := run_invariant (Heard (s.daemon.queue.events.map (·.id)) c) (fun _ _ _ hs hok h => hs.step hok h)
    hheard hok ht
  exact (hend.done hdone).imp_left List.forall_mem_map.mp

/-- A device message is taken in and its event started before a client asks; the worker
returns, and the client, answered in the round before, finds the queue empty. -/
def settledRun : List Act × List Act :=
  ([.uevent { seqnum := 1, devpath := str "/block/sda" }] ++ deviceRound 100 [0] ++ [.settle true],
   [.main (.round true), .main (.wake { isCtrl := true }), .main (.config false), .main .returned,
    .main (.receive false), .main (.start {}), .main (.start {}), .main (.start {}),
    .main (.signal none), .main .inotify, .main .ctrl, .settleStep 0 true, .settleStep 0 true,
    .settleStep 0 false, .worker (.handled 100 false), .main (.round true),
    .main (.wake { isWorker := true }), .main (.config false), .main .returned, .main .returned,
    .main (.receive false), .main (.start {}), .main (.signal none), .main .inotify, .main .ctrl,
    .settleStep 0 false, .main (.round true), .settleStep 0 false])

theorem settle_waits_disk :
    ∃ s t, run step {} settledRun.1 = some s ∧ run step s settledRun.2 = some t ∧
      s.daemon.queue.events ≠ [] ∧
      ((∀ e ∈ s.daemon.queue.events, Removed t.daemon.queue e.id) ∨ GaveUp t) :=
  ⟨_,_,rfl,rfl,by decide,settle_waits (c := 0)
    (show run step {} settledRun.1 = some _ from rfl) rfl ⟨rfl,by decide⟩ (by decide)
    (show run step _ settledRun.2 = some _ from rfl) rfl⟩

/-- The event that is taken in in the round of the answer is not covered. -/
example :
    let bs : List Act := [.uevent { seqnum := 1, devpath := str "/block/sda" }, .settle true,
      .main (.round true), .main (.wake { isNetlink := true, isCtrl := true }), .main (.config false),
      .main .returned, .main (.receive false), .main (.start {}),
      .main (.start { fork := some 100 }), .main (.start {}), .main (.signal none), .main .inotify,
      .main .ctrl, .settleStep 0 true, .settleStep 0 true, .settleStep 0 false]
    ((run step {} bs).map fun s => (s.settles,s.daemon.queue.events.map (·.state))) =
      some ([(0,.done .empty)],[.running]) := by decide

end MainLoop
end Udev
