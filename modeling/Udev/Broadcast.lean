import Udev.Drain

/-! What the listeners of udevd see: each worker broadcasts the device that it has handled before
it sends the result. Here the device messages carry their device, so a run tells which
devices were broadcast and in which order. -/
namespace Udev
namespace Broadcast

open Runs EventQueue Daemon Workers Ownership WorkerLists

def plain (e : Event) : Event := { e with state := .undef, delayingSeqnum := 0 }

/-- The processes with the devices that were sent to them and are not handled, the one in work
first, and what was broadcast. -/
structure State where
  daemon : Daemon.State := {}
  boxes : ℕ → List Event := fun _ => []
  sent : List Event := []

def takes (refuses : List ℕ) (d : Daemon.State) (w : Worker) : Bool :=
  w.state = .idle && (w.pid ∉ refuses && listening d w.pid)

/-- The idle worker that takes the message in `event_run`. -/
def taker (refuses : List ℕ) (d : Daemon.State) (ws : List Worker) : Option Worker :=
  ws.find? (takes refuses d)

/-- The device goes to a worker that is idle, or a new process has it from its start. -/
def handOver (d : Daemon.State) (boxes : ℕ → List Event) (id : ℕ) (o : StartOracle) : ℕ → List Event :=
  (find? d.queue id).elim boxes fun e =>
    if e.state ≠ .queued || (testBusy d.queue e).1 then boxes
    else
      match taker o.refuses d d.workers with
      | some w => Function.update boxes w.pid (boxes w.pid ++ [plain e])
      | none =>
        if d.children ≥ d.childrenMax then boxes
        else o.fork.elim boxes fun pid => Function.update boxes pid [plain e]

/-- The steps of the daemon and its workers; a worker that can not lock the device node skips the
device and sends only the result, and one may be ended by a signal between both messages. -/
inductive Act
  | daemon (a : Daemon.Act) | skipped (pid : ℕ) (sigterm : Bool) | broken (pid sig : ℕ)
  deriving DecidableEq, Repr

def daemonAct : Act → Daemon.Act
  | .daemon a => a
  | .skipped pid sigterm => .handled pid sigterm
  | .broken pid sig => .crash pid sig

def inWork (d : Daemon.State) : Act → Bool
  | .broken pid _ => (findProcess d pid).any (·.phase = .handling)
  | _ => true

/-- The device in work is done, or a message that can not be used is dropped. -/
def take (boxes : ℕ → List Event) (pid : ℕ) : ℕ → List Event :=
  Function.update boxes pid (boxes pid).tail

/-- The state after the step, when the daemon's part is done. -/
def after (s : State) (a : Act) (d : Daemon.State) : State :=
  match a with
  | .daemon (.start id o) => { s with daemon := d, boxes := handOver s.daemon s.boxes id o }
  | .daemon (.handled pid _) =>
    { daemon := d, boxes := take s.boxes pid, sent := s.sent ++ (s.boxes pid).take 1 }
  | .broken pid _ => { s with daemon := d, sent := s.sent ++ (s.boxes pid).take 1 }
  | .skipped pid _ | .daemon (.receive pid false) => { s with daemon := d, boxes := take s.boxes pid }
  | .daemon _ => { s with daemon := d }

def step (s : State) (a : Act) : Option State :=
  if inWork s.daemon a then (Daemon.step s.daemon (daemonAct a)).map (after s a) else none

def broadcaster : Act → Option ℕ
  | .daemon (.handled pid _) | .broken pid _ => some pid
  | _ => none

def forks : Daemon.Act → Option ℕ
  | .start _ o => o.fork
  | _ => none

/-- The kill of a timeout takes effect before its worker goes on, and a process number is not
used again while a result with it is unread. -/
def Prompt (d : Daemon.State) (a : Act) : Prop :=
  (∀ pid ∈ broadcaster a, ∃ w ∈ d.workers, w.pid = pid ∧ w.event ≠ none) ∧
    ∀ pid ∈ forks (daemonAct a), pid ∉ d.messages

instance decidablePrompt (d : Daemon.State) (a : Act) : Decidable (Prompt d a) :=
  inferInstanceAs (Decidable (_ ∧ _))

/-- The SEQNUMs increase, no timeout hits a reaped process, and the steps are prompt. -/
def Orderly (s : State) (a : Act) : Prop :=
  Serialization.SeqnumsIncrease s.daemon (daemonAct a) ∧ Fresh s.daemon (daemonAct a) ∧ Prompt s.daemon a

instance decidableOrderly (s : State) (a : Act) : Decidable (Orderly s a) :=
  haveI := Drain.decidableFresh s.daemon (daemonAct a)
  inferInstanceAs (Decidable (_ ∧ _ ∧ _))

section Queue

/-- A worker's event keeps its device, and only a queued event is queued afterwards. -/
theorem step_events {d d' : Daemon.State} {a : Daemon.Act} (ha : Addresses d.queue) (h : Daemon.step d a = some d')
    {e' : Event} (he' : e' ∈ d'.queue.events) :
    (∃ e ∈ d.queue.events, plain e' = plain e ∧ (e'.state = .queued → e.state = .queued)) ∨
      d.queue.nextId = e'.id ∧ ∃ dev, a = .insert dev ∧ e'.seqnum = dev.seqnum := by
  have hupdate : ∀ (q : Queue) (i : ℕ) (f : Event → Event), (∀ e, plain (f e) = plain e) →
      (∀ e ∈ q.events, e.id = i → (f e).state = .queued → e.state = .queued) → ∀ e' ∈ (update q i f).events,
      ∃ e ∈ q.events, plain e' = plain e ∧ (e'.state = .queued → e.state = .queued) := by
    intro q i f hf hs e' he'
    obtain ⟨e,he,rfl⟩ := List.mem_map.mp he'
    split_ifs with hid
    · exact ⟨e,he,hf e,hs e he hid⟩
    · exact ⟨e,he,rfl,id⟩
  have hsame : ∀ q : Queue, (∀ x ∈ q.events, x ∈ d.queue.events) → e' ∈ q.events →
      ∃ e ∈ d.queue.events, plain e' = plain e ∧ (e'.state = .queued → e.state = .queued) :=
    fun q hq he => ⟨e',hq e' he,rfl,id⟩
  by_cases hstart : ∃ i o, a = .start i o
  · obtain ⟨i,o,rfl⟩ := hstart
    refine Or.inl ?_
    obtain ⟨e,he,rfl,⟨_,hd⟩ | ⟨hq,g,_,hcases⟩⟩ := startEvent_cases h
    · exact hsame d.queue (fun _ hx => hx) (hd ▸ he')
    have hbusy := hupdate d.queue e.id (fun x => { x with delayingSeqnum := (isDevpathBusy e d.queue.events).2 })
      (fun _ => rfl) (fun _ _ _ hs => hs)
    have hthen : ∀ st, (st = .queued → e.state = .queued) → ∀ e' ∈ (update (testBusy d.queue e).2 e.id
        fun x => { x with state := st }).events,
        ∃ e ∈ d.queue.events, plain e' = plain e ∧ (e'.state = .queued → e.state = .queued) := by
      intro st hst e' he'
      have hone : ∀ x ∈ (testBusy d.queue e).2.events, x.id = e.id → st = .queued → x.state = .queued := by
        intro x hx hid hs
        obtain ⟨y,hy,rfl⟩ := List.mem_map.mp hx
        have hye : y = e := ha.eq_of_id hy he (by split_ifs at hid <;> exact hid)
        subst hye
        simpa using hst hs
      obtain ⟨x,hx,hpx,hqx⟩ := hupdate _ e.id (fun x => { x with state := st }) (fun _ => rfl) hone e' he'
      obtain ⟨y,hy,hpy,hqy⟩ := hbusy x hx
      exact ⟨y,hy,hpx.trans hpy,fun hs => hqy (hqx hs)⟩
    rcases hcases with rfl | rfl | ⟨_,⟨w,_,_,rfl⟩ | ⟨pid,_,_,rfl⟩⟩
    · exact hbusy e' he'
    · exact hthen .queued (fun _ => hq) e' he'
    · exact hthen .running (by simp) e' he'
    · exact hthen .running (by simp) e' he'
  by_cases hinsert : ∃ dev, a = .insert dev
  · obtain ⟨dev,rfl⟩ := hinsert
    cases h
    rcases List.mem_append.mp he' with he' | he'
    · exact Or.inl (hsame d.queue (fun _ hx => hx) he')
    · rw [List.mem_singleton.mp he']
      exact Or.inr ⟨rfl,dev,rfl,rfl⟩
  · have hno : ¬Begins a := fun hb => by
      cases a with
      | insert dev => exact hinsert ⟨dev,rfl⟩
      | start i o => exact hstart ⟨i,o,rfl⟩
      | _ => exact hb
    exact Or.inl (hsame d'.queue (fun x hx => (step_fewer hno h).1.subset hx) he')

end Queue

section HandOver

variable {d d' : Daemon.State} {id : ℕ} {o : StartOracle}

theorem eventRunLoop_taker (d : Daemon.State) (id : ℕ) (refuses : List ℕ) (ws : List Worker) :
    ∃ g, Kills g ∧ eventRunLoop d id refuses ws = (taker refuses d ws).elim
      ({ d with workers := d.workers.map g },false) fun w => (assign { d with workers := d.workers.map g } id w,true) := by
  induction ws generalizing d with
  | nil => exact ⟨_,kills_id,by simp [eventRunLoop,taker]⟩
  | cons w ws ih =>
    simp only [eventRunLoop]
    split_ifs with h₁ h₂
    · obtain ⟨g,hg,h⟩ := ih d
      have hno : taker refuses d (w::ws) = taker refuses d ws := List.find?_cons_of_neg (by simp [takes,h₁])
      exact ⟨g,hg,by rw [h,hno]⟩
    · obtain ⟨g,hg,h⟩ := ih (updateWorker d w.id fun w => { w with state := .killed })
      refine ⟨_,hg.update w.id,?_⟩
      have hno : taker refuses d (w::ws) = taker refuses d ws := by
        refine List.find?_cons_of_neg ?_
        rcases h₂ with h₂ | h₂ <;> simp [takes,h₂]
      rw [h,hno]
      simp only [updateWorker,List.map_map,Function.comp_def]
      rfl
    · simp only [not_or,not_not] at h₂
      have htaker : taker refuses d (w::ws) = some w := by
        refine List.find?_cons_of_pos ?_
        simpa [takes,h₂] using h₁
      exact ⟨_,kills_id,by rw [htaker]; simp⟩

def HandsNothing (d d' : Daemon.State) : Prop :=
  d'.procs = d.procs ∧ d'.messages = d.messages ∧ ∃ g, Kills g ∧ d'.workers = d.workers.map g

theorem start_hands (boxes : ℕ → List Event) (h : startEvent d id o = some d') :
    handOver d boxes id o = boxes ∧ HandsNothing d d' ∨
    ∃ e ∈ d.queue.events, e.id = id ∧ e.state = .queued ∧ ∃ g, Kills g ∧
      let d₁ := { d with queue := (testBusy d.queue e).2, workers := d.workers.map g }
      (∃ w ∈ d.workers, w.state = .idle ∧ listening d w.pid = true ∧ d' = assign d₁ id w ∧
        handOver d boxes id o = Function.update boxes w.pid (boxes w.pid ++ [plain e])) ∨
      ∃ pid, o.fork = some pid ∧ unreaped d pid = false ∧ d' = forked d₁ id pid ∧
        handOver d boxes id o = Function.update boxes pid [plain e] := by
  simp only [startEvent] at h
  split at h
  · cases h
  rename_i e he
  obtain ⟨hmem,hid⟩ := mem_of_find? he
  have hover : handOver d boxes id o =
      if e.state ≠ .queued || (testBusy d.queue e).1 then boxes
      else
        match taker o.refuses d d.workers with
        | some w => Function.update boxes w.pid (boxes w.pid ++ [plain e])
        | none =>
          if d.children ≥ d.childrenMax then boxes
          else o.fork.elim boxes fun pid => Function.update boxes pid [plain e] := by
    rw [handOver,he]
    rfl
  split_ifs at h with hst hbusy
  · cases h
    exact Or.inl ⟨by simp [hover,hst],rfl,rfl,_,kills_id,by simp⟩
  · cases h
    exact Or.inl ⟨by simp [hover,hbusy],rfl,rfl,_,kills_id,by simp⟩
  have hq : e.state = .queued := by simpa using hst
  have hfree : (testBusy d.queue e).1 = false := by simpa using hbusy
  simp only [hq,hfree,ne_eq,not_true_eq_false,decide_false,Bool.or_self,Bool.false_eq_true,if_false] at hover
  obtain ⟨g,hg,hloop⟩ := eventRunLoop_taker { d with queue := (testBusy d.queue e).2 } id o.refuses d.workers
  have htaker : taker o.refuses { d with queue := (testBusy d.queue e).2 } d.workers = taker o.refuses d d.workers := rfl
  rw [htaker] at hloop
  simp only [eventRun,hloop] at h
  cases ht : taker o.refuses d d.workers with
  | some w =>
    have hw := List.find?_some ht
    simp only [takes,Bool.and_eq_true,decide_eq_true_eq] at hw
    simp only [ht,Option.elim_some,if_true,Option.some.injEq] at h hover
    exact Or.inr ⟨e,hmem,hid,hq,g,hg,Or.inl ⟨w,List.mem_of_find?_eq_some ht,hw.1,hw.2.2,h.symm,hover⟩⟩
  | none =>
    simp only [ht,Option.elim_none,Bool.false_eq_true,if_false] at h hover
    split_ifs at h hover with hmax
    · cases h
      exact Or.inl ⟨hover,rfl,rfl,g,hg,rfl⟩
    · cases ho : o.fork with
      | none =>
        rw [ho] at h hover
        cases h
        exact Or.inl ⟨hover,rfl,rfl,g,hg,rfl⟩
      | some pid =>
        simp only [ho,workerNew,Option.elim_some] at h hover
        split_ifs at h with hu
        cases h
        exact Or.inr ⟨e,hmem,hid,hq,g,hg,Or.inr ⟨pid,rfl,by simpa [unreaped] using hu,rfl,hover⟩⟩

end HandOver

/-- The devices that a process has or had in its queue and still counts for. -/
def load (p : Process) : ℕ := p.inbox + if p.phase = .handling then 1 else 0

theorem processStep_messages {p : Process} {a : Daemon.Act} {r : Process × List ℕ} (h : processStep p a = some r) :
    r.2 = [] ∨ r.2 = [p.pid] := by
  cases a <;> simp only [processStep] at h <;>
    first
    | cases h
    | (split_ifs at h <;> cases h <;> simp)

def pending (d : Daemon.State) (boxes : ℕ → List Event) (pid : ℕ) : ℕ := d.messages.count pid + (boxes pid).length

/-- The devices at the processes: at most one for each, and it is the one of its worker's event,
which was not broadcast. -/
structure Mail (d : Daemon.State) (boxes : ℕ → List Event) (sent : List Event) : Prop where
  counts : ∀ p ∈ d.procs, ¬isDead p → (boxes p.pid).length = load p
  single : ∀ p ∈ d.procs, ¬isDead p → pending d boxes p.pid ≤ 1
  idle : ∀ p ∈ d.procs, ¬isDead p → ∀ w ∈ d.workers, w.pid = p.pid → w.state = .idle → pending d boxes p.pid = 0
  current : ∀ p ∈ d.procs, ¬isDead p → ∀ w ∈ d.workers, w.pid = p.pid → ∀ i, w.event = some i →
    ∀ x ∈ boxes p.pid, (∃ e ∈ d.queue.events, plain e = x ∧ e.id = i) ∧ ∀ y ∈ sent, y.id ≠ i

/-- What was broadcast: each event once, none before an earlier one that conflicts with it. -/
structure History (q : Queue) (sent : List Event) : Prop where
  bounded : ∀ x ∈ sent, x.id < q.nextId ∧ x.seqnum ≤ q.lastSeqnum
  started : ∀ x ∈ sent, ∀ e ∈ q.events, e.id = x.id → e.state ≠ .queued
  earlier : ∀ x ∈ sent, ∀ e ∈ q.events, e.seqnum < x.seqnum → conflictTest x e = none
  ordered : sent.Pairwise fun x y => x.id ≠ y.id ∧ (y.seqnum < x.seqnum → ¬Conflicts x y)

structure Inv (s : State) : Prop where
  workers : Workers.Inv s.daemon
  queue : EventQueue.Inv s.daemon.queue ∧ Addresses s.daemon.queue ∧ Serialization.Serial s.daemon.queue
  procs : (s.daemon.procs.map (·.pid)).Nodup
  mail : Mail s.daemon s.boxes s.sent
  history : History s.daemon.queue s.sent

section History

variable {d d' : Daemon.State} {a : Daemon.Act} {sent : List Event}

theorem id_of_plain {e e' : Event} (h : plain e' = plain e) : e'.id = e.id := by
  have := congrArg (·.id) h
  exact this

theorem seqnum_of_plain {e e' : Event} (h : plain e' = plain e) : e'.seqnum = e.seqnum := by
  have := congrArg (·.seqnum) h
  exact this

theorem conflictTest_plain (x e : Event) : conflictTest x (plain e) = conflictTest x e := rfl

theorem step_bounds (hseq : Serialization.SeqnumsIncrease d a) (h : Daemon.step d a = some d') :
    d.queue.nextId ≤ d'.queue.nextId ∧ d.queue.lastSeqnum ≤ d'.queue.lastSeqnum := by
  rcases Serialization.step_queue h with ⟨dev,rfl,hq⟩ | ⟨e,_,hq | hq | ⟨_,hq⟩⟩ | ⟨p,hq⟩ <;> rw [hq]
  · exact ⟨Nat.le_succ _,Nat.le_of_lt hseq⟩
  all_goals exact ⟨le_rfl,le_rfl⟩

theorem History.step (hh : History d.queue sent) (ha : Addresses d.queue) (hseq : Serialization.SeqnumsIncrease d a)
    (h : Daemon.step d a = some d') : History d'.queue sent := by
  obtain ⟨hid,hlast⟩ := step_bounds hseq h
  refine ⟨fun x hx => ?_,fun x hx e' he' hx' hq => ?_,fun x hx e' he' hlt => ?_,hh.ordered⟩
  · obtain ⟨h₁,h₂⟩ := hh.bounded x hx
    exact ⟨Nat.lt_of_lt_of_le h₁ hid,h₂.trans hlast⟩
  · rcases step_events ha h he' with ⟨e,he,hp,hs⟩ | ⟨hnew,_⟩
    · exact hh.started x hx e he ((id_of_plain hp).symm.trans hx') (hs hq)
    · have := (hh.bounded x hx).1
      omega
  · rcases step_events ha h he' with ⟨e,he,hp,_⟩ | ⟨_,dev,rfl,hdev⟩
    · rw [← conflictTest_plain,hp,conflictTest_plain]
      exact hh.earlier x hx e he (seqnum_of_plain hp ▸ hlt)
    · have hlast : d.queue.lastSeqnum < dev.seqnum := hseq
      have := (hh.bounded x hx).2
      omega

theorem History.broadcast {q : Queue} (hh : History q sent)
    (hq : EventQueue.Inv q ∧ Addresses q ∧ Serialization.Serial q) {e : Event} (he : e ∈ q.events)
    (hrun : e.state = .running) (hnew : ∀ y ∈ sent, y.id ≠ e.id) : History q (sent ++ [plain e]) := by
  obtain ⟨hi,hadr,hserial⟩ := hq
  refine ⟨fun x hx => ?_,fun x hx l hl hid => ?_,fun x hx l hl hlt => ?_,List.pairwise_append.mpr ?_⟩
  · rcases List.mem_append.mp hx with hx | hx
    · exact hh.bounded x hx
    · rw [List.mem_singleton.mp hx]
      exact ⟨hadr.fresh e he,hi.bounded e he⟩
  · rcases List.mem_append.mp hx with hx | hx
    · exact hh.started x hx l hl hid
    · rw [List.mem_singleton.mp hx] at hid
      rw [hadr.eq_of_id hl he hid,hrun]
      simp
  · rcases List.mem_append.mp hx with hx | hx
    · exact hh.earlier x hx l hl hlt
    · rw [List.mem_singleton.mp hx] at hlt ⊢
      exact hserial e he hrun l hl hlt
  · refine ⟨hh.ordered,List.pairwise_singleton _ _,fun x hx y hy => ?_⟩
    rw [List.mem_singleton.mp hy]
    refine ⟨hnew x hx,fun hlt => ?_⟩
    rw [← conflictTest_isSome,conflictTest_plain,hh.earlier x hx e he hlt]
    simp

end History

section Mail

variable {d d' : Daemon.State} {a : Daemon.Act} {boxes : ℕ → List Event} {sent : List Event}

theorem current_step (hd : Workers.Inv d) (hd' : Workers.Inv d') (h : Daemon.step d a = some d') {w' : Worker}
    (hw' : w' ∈ d'.workers) {i : ℕ} (hi : w'.event = some i) {e : Event} (he : e ∈ d.queue.events) (hid : e.id = i) :
    ∃ e' ∈ d'.queue.events, plain e' = plain e ∧ e'.id = i := by
  obtain ⟨e',he',hid',_⟩ := (hd'.running i).mpr ⟨w',hw',hi⟩
  rcases step_events hd.addresses h he' with ⟨e₀,he₀,hp,_⟩ | ⟨hnew,_⟩
  · have heq : e₀ = e := hd.addresses.eq_of_id he₀ he (by rw [← id_of_plain hp,hid',hid])
    exact ⟨e',he',heq ▸ hp,hid'⟩
  · have := hd.addresses.fresh e he
    omega

theorem Mail.frame (hm : Mail d boxes sent) (hd : Workers.Inv d) (hd' : Workers.Inv d')
    (h : Daemon.step d a = some d')
    (hprocs : ∀ p' ∈ d'.procs, ¬isDead p' → d'.messages.count p'.pid ≤ d.messages.count p'.pid ∧
      ∃ p ∈ d.procs, ¬isDead p ∧ p.pid = p'.pid ∧ load p = load p')
    (hworkers : ∀ w' ∈ d'.workers, ∃ w ∈ d.workers, w.pid = w'.pid ∧ (w'.event = none ∨ w'.event = w.event) ∧
      (w'.state = .idle → w.state = .idle ∨ d'.messages.count w.pid < d.messages.count w.pid)) :
    Mail d' boxes sent := by
  refine ⟨fun p' hp' hl' => ?_,fun p' hp' hl' => ?_,fun p' hp' hl' w' hw' hwp hidle => ?_,
    fun p' hp' hl' w' hw' hwp i hi x hx => ?_⟩
  all_goals obtain ⟨hcount,p,hp,hl,hpid,hload⟩ := hprocs p' hp' hl'
  · rw [← hload,← hpid]
    exact hm.counts p hp hl
  · have := hm.single p hp hl
    simp only [pending,hpid] at this ⊢
    omega
  · obtain ⟨w,hw,hww,_,hst⟩ := hworkers w' hw'
    have hsingle := hm.single p hp hl
    have hzero := hm.idle p hp hl w hw (hww.trans (hwp.trans hpid.symm))
    rw [hww,hwp] at hst
    simp only [pending,hpid] at hsingle hzero ⊢
    rcases hst hidle with hidle | hlt
    · have := hzero hidle
      omega
    · omega
  · obtain ⟨w,hw,hww,hev,_⟩ := hworkers w' hw'
    have hwi : w.event = some i := by
      rcases hev with hev | hev
      · rw [hev] at hi
        cases hi
      · exact hev.symm.trans hi
    obtain ⟨⟨e,he,hx,hid⟩,hsent⟩ := hm.current p hp hl w hw (hww.trans (hwp.trans hpid.symm)) i hwi x (hpid ▸ hx)
    obtain ⟨e',he',hp',hid'⟩ := current_step hd hd' h hw' hi he hid
    exact ⟨⟨e',he',hp'.trans hx,hid'⟩,hsent⟩

theorem Mail.handed (hm : Mail d boxes sent) (hd : Workers.Inv d) (hd' : Workers.Inv d')
    (h : Daemon.step d a = some d') {pid : ℕ} {e : Event} (he : e ∈ d.queue.events) (hnew : ∀ y ∈ sent, y.id ≠ e.id)
    (hmsgs : d'.messages = d.messages) (hunread : pid ∉ d.messages)
    (hprocs : ∀ p' ∈ d'.procs, ¬isDead p' → p'.pid = pid ∧ load p' = 1 ∨ p'.pid ≠ pid ∧ p' ∈ d.procs)
    (hworkers : ∀ w' ∈ d'.workers, w'.pid = pid ∧ w'.state = .running ∧ w'.event = some e.id ∨
      w'.pid ≠ pid ∧ ∃ w ∈ d.workers, w.pid = w'.pid ∧ w'.event = w.event ∧ (w'.state = .idle → w.state = .idle)) :
    Mail d' (Function.update boxes pid [plain e]) sent := by
  have hcount : d.messages.count pid = 0 := List.count_eq_zero.mpr hunread
  refine ⟨fun p' hp' hl' => ?_,fun p' hp' hl' => ?_,fun p' hp' hl' w' hw' hwp hidle => ?_,
    fun p' hp' hl' w' hw' hwp i hi x hx => ?_⟩
  all_goals rcases hprocs p' hp' hl' with ⟨hpid,hload⟩ | ⟨hpid,hp⟩
  · simp [hpid,hload]
  · simpa [Function.update_of_ne hpid] using hm.counts p' hp hl'
  · simp [pending,hmsgs,hpid,hcount]
  · simpa [pending,hmsgs,Function.update_of_ne hpid] using hm.single p' hp hl'
  · rcases hworkers w' hw' with ⟨_,hrun,_⟩ | ⟨hne,_⟩
    · rw [hrun] at hidle
      cases hidle
    · exact absurd (hwp.trans hpid) hne
  · rcases hworkers w' hw' with ⟨heq,_⟩ | ⟨_,w,hw,hww,_,hst⟩
    · exact absurd (hwp.symm.trans heq) hpid
    · simpa [pending,hmsgs,Function.update_of_ne hpid] using hm.idle p' hp hl' w hw (hww.trans hwp) (hst hidle)
  · rcases hworkers w' hw' with ⟨_,_,hev⟩ | ⟨hne,_⟩
    · obtain rfl : e.id = i := Option.some.inj (hev.symm.trans hi)
      rw [hpid,Function.update_self,List.mem_singleton] at hx
      subst hx
      exact ⟨current_step hd hd' h hw' hi he rfl,hnew⟩
    · exact absurd (hwp.trans hpid) hne
  · rcases hworkers w' hw' with ⟨heq,_⟩ | ⟨_,w,hw,hww,hev,_⟩
    · exact absurd (hwp.symm.trans heq) hpid
    · rw [Function.update_of_ne hpid] at hx
      obtain ⟨⟨e₀,he₀,hx₀,hid₀⟩,hsent⟩ := hm.current p' hp hl' w hw (hww.trans hwp) i (hev ▸ hi) x hx
      obtain ⟨e',he',hp',hid'⟩ := current_step hd hd' h hw' hi he₀ hid₀
      exact ⟨⟨e',he',hp'.trans hx₀,hid'⟩,hsent⟩

/-- The step of a worker, which may have broadcast the device of its event. -/
theorem Mail.worker (hm : Mail d boxes sent) (hd : Workers.Inv d) {pid : ℕ}
    (h : workerStep d pid a = some d') {boxes' : ℕ → List Event} {sent' : List Event}
    (hboxes : ∀ i, i ≠ pid → boxes' i = boxes i)
    (hsent : ∀ y ∈ sent', y ∈ sent ∨ ∃ w ∈ d.workers, w.pid = pid ∧ w.event = some y.id)
    (hself : ∀ p ∈ d.procs, p.pid = pid → ∀ r, processStep p a = some r → isDead r.1 ∨ ¬isDead p ∧
      (boxes' pid).length = load r.1 ∧ r.2.count pid + (boxes' pid).length ≤ (boxes pid).length ∧
      (boxes' pid = [] ∨ boxes' = boxes ∧ sent' = sent)) :
    Mail d' boxes' sent' := by
  obtain ⟨p,hp,h⟩ := Option.bind_eq_some_iff.mp h
  obtain ⟨r,hr,rfl⟩ := Option.map_eq_some_iff.mp h
  obtain ⟨hmem,rfl⟩ := findProcess_some hp
  have hrpid := processStep_pid hr
  have hother : ∀ i, i ≠ p.pid → r.2.count i = 0 := by
    intro i hi
    have hmsgs : r.2 = [] ∨ r.2 = [p.pid] := processStep_messages hr
    rcases hmsgs with hmsgs | hmsgs <;> simp [hmsgs,Ne.symm hi]
  have hprocs : ∀ p' ∈ (setProcess d r.1).procs, p' = r.1 ∨ p'.pid ≠ p.pid ∧ p' ∈ d.procs := by
    intro p' hp'
    obtain ⟨q,hq,rfl⟩ := List.mem_map.mp hp'
    split_ifs with heq
    · exact Or.inl rfl
    · exact Or.inr ⟨hrpid ▸ heq,hq⟩
  refine ⟨fun p' hp' hl' => ?_,fun p' hp' hl' => ?_,fun p' hp' hl' w hw hwp hidle => ?_,
    fun p' hp' hl' w hw hwp i hi x hx => ?_⟩
  all_goals rcases hprocs p' hp' with rfl | ⟨hne,hq⟩
  · rw [hrpid]
    exact ((hself p hmem rfl r hr).resolve_left hl').2.1
  · rw [hboxes _ hne]
    exact hm.counts p' hq hl'
  · obtain ⟨hl,_,hle,_⟩ := (hself p hmem rfl r hr).resolve_left hl'
    have := hm.single p hmem hl
    simp only [pending,List.count_append,hrpid] at this ⊢
    omega
  · simp only [pending,List.count_append,hother _ hne,hboxes _ hne]
    exact hm.single p' hq hl'
  · obtain ⟨hl,_,hle,_⟩ := (hself p hmem rfl r hr).resolve_left hl'
    have := hm.idle p hmem hl w hw (hwp.trans hrpid) hidle
    simp only [pending,List.count_append,hrpid] at this ⊢
    omega
  · simp only [pending,List.count_append,hother _ hne,hboxes _ hne]
    exact hm.idle p' hq hl' w hw hwp hidle
  · obtain ⟨hl,_,_,hcases⟩ := (hself p hmem rfl r hr).resolve_left hl'
    rw [hrpid] at hx hwp
    rcases hcases with hnil | ⟨rfl,rfl⟩
    · simp [hnil] at hx
    · exact hm.current p hmem hl w hw hwp i hi x hx
  · rw [hboxes _ hne] at hx
    obtain ⟨hcur,hold⟩ := hm.current p' hq hl' w hw hwp i hi x hx
    refine ⟨hcur,fun y hy hyi => ?_⟩
    rcases hsent y hy with hy | ⟨v,hv,hvp,hvi⟩
    · exact hold y hy hyi
    · have := hd.owners w hw v hv i hi (hyi ▸ hvi)
      subst this
      exact hne (hwp.symm.trans hvp)

theorem settle_procs (d : Daemon.State) (w : Worker) : (settle d w).procs = d.procs := by
  unfold settle
  split_ifs <;> rfl

theorem settle_messages (d : Daemon.State) (w : Worker) : (settle d w).messages = d.messages := by
  unfold settle
  split_ifs <;> rfl

/-- A step that settles one worker, which keeps its event if it keeps one. -/
theorem Mail.settle (hm : Mail d boxes sent) (hd : Workers.Inv d) {d₁ : Daemon.State} {w w' : Worker}
    (hd' : Workers.Inv (Workers.settle d₁ w')) (h : Daemon.step d a = some (Workers.settle d₁ w')) (hw : w ∈ d.workers)
    (hpid : w'.pid = w.pid) (hws : d₁.workers = d.workers) (hprocs : ∀ p ∈ d₁.procs, p ∈ d.procs)
    (hev : w'.event = none ∨ w'.event = w.event) (hmsgs : ∀ pid, d₁.messages.count pid ≤ d.messages.count pid)
    (hst : w'.state = .idle → w.state = .idle ∨ d₁.messages.count w.pid < d.messages.count w.pid) :
    Mail (Workers.settle d₁ w') boxes sent := by
  refine hm.frame hd hd' h (fun p hp hl => ?_) fun u hu => ?_
  · rw [settle_procs] at hp
    rw [settle_messages]
    exact ⟨hmsgs _,p,hprocs p hp,hl,rfl,rfl⟩
  · rw [settle_messages]
    rcases mem_settle hu with ⟨rfl,_⟩ | ⟨hu,_⟩
    · exact ⟨w,hw,hpid.symm,hev,hst⟩
    · exact ⟨u,hws ▸ hu,rfl,Or.inr rfl,Or.inl⟩

theorem Mail.returned (hm : Mail d boxes sent) (hd : Workers.Inv d) (hd' : Workers.Inv d')
    (h : Daemon.step d .returned = some d') : Mail d' boxes sent := by
  obtain ⟨pid,rest,hmsgs,hcases⟩ := returned_cases hd h
  have hle : ∀ i, rest.count i ≤ d.messages.count i := fun i => by
    rw [hmsgs]
    exact (List.sublist_cons_self _ _).count_le _
  rcases hcases with ⟨_,rfl⟩ | ⟨w,hw,rfl,rfl⟩
  · exact hm.frame hd hd' h (fun p hp hl => ⟨hle _,p,hp,hl,rfl,rfl⟩) fun w hw => ⟨w,hw,rfl,Or.inr rfl,Or.inl⟩
  · obtain ⟨q,hq,_⟩ := release_eq { d with messages := rest } w.event hd.addresses
    rw [hq] at h hd' ⊢
    exact hm.settle hd hd' h hw rfl rfl (fun _ hp => hp) (Or.inl rfl) hle fun _ => Or.inr (by simp [hmsgs])

theorem Mail.reaped (hm : Mail d boxes sent) (hd : Workers.Inv d) (hd' : Workers.Inv d') {pid : ℕ}
    (h : Daemon.step d (.reap pid) = some d') : Mail d' boxes sent := by
  obtain ⟨_,status,_,_,hu,rfl⟩ := reap_cases h
  have hprocs : ∀ p ∈ (withoutProcess d pid).procs, p ∈ d.procs := fun p hp => List.mem_of_mem_filter hp
  rcases reaped_cases hd hu status with ⟨_,heq⟩ | ⟨w,hw,rfl,⟨_,heq⟩ | ⟨i,_,_,heq⟩⟩ <;> rw [heq] at h hd' ⊢
  · exact hm.frame hd hd' h (fun p hp hl => ⟨le_rfl,p,hprocs p hp,hl,rfl,rfl⟩) fun w hw =>
      ⟨w,hw,rfl,Or.inr rfl,Or.inl⟩
  · exact hm.settle hd hd' h hw rfl rfl hprocs (Or.inr rfl) (fun _ => le_rfl) Or.inl
  · exact hm.settle hd hd' h hw rfl rfl hprocs (Or.inl rfl) (fun _ => le_rfl) (by simp)

theorem Mail.expired (hm : Mail d boxes sent) (hd : Workers.Inv d) (hd' : Workers.Inv d') {id : ℕ}
    (ha : Fresh d (.expire id)) (h : Daemon.step d (.expire id) = some d') : Mail d' boxes sent := by
  obtain ⟨w,hw,hid,_,i,hi,rfl⟩ := expire_cases h
  rw [expire_eq hd.ids hw (hd.refcount_two hw (ha w hw hid) hi)] at h hd' ⊢
  exact hm.settle hd hd' h hw rfl rfl (fun _ hp => hp) (Or.inl rfl) (fun _ => le_rfl) (by simp)

theorem Mail.kills (hm : Mail d boxes sent) (hd : Workers.Inv d) (hd' : Workers.Inv d')
    (h : Daemon.step d a = some d') {g : Worker → Worker} (hg : Kills g) (hworkers : d'.workers = d.workers.map g)
    (hmsgs : d'.messages = d.messages) (hprocs : ∀ p' ∈ d'.procs, ¬isDead p' → ∃ p ∈ d.procs, ¬isDead p ∧
      p.pid = p'.pid ∧ load p = load p') : Mail d' boxes sent := by
  refine hm.frame hd hd' h (fun p hp hl => ⟨by rw [hmsgs],hprocs p hp hl⟩) ?_
  rw [hworkers]
  refine List.forall_mem_map.mpr fun w hw => ⟨w,hw,?_⟩
  rcases hg w with hgw | hgw <;> rw [hgw]
  · exact ⟨rfl,Or.inr rfl,Or.inl⟩
  · exact ⟨rfl,Or.inr rfl,by simp⟩

theorem Mail.killed (hm : Mail d boxes sent) (hd : Workers.Inv d) (hd' : Workers.Inv (workerKill d)) :
    Mail (workerKill d) boxes sent := by
  refine hm.kills (a := .kill) hd hd' rfl (g := fun w => { w with state := .killed }) (fun _ => Or.inr rfl) rfl rfl ?_
  intro p' hp' hl'
  obtain ⟨p,hp,rfl⟩ := List.mem_map.mp hp'
  refine ⟨p,hp,?_⟩
  split_ifs at hl' ⊢ <;> exact ⟨hl',rfl,rfl⟩

/-- The worker that takes the event runs it; the others are as they were, or killed. -/
theorem assign_workers {d : Daemon.State} {g : Worker → Worker} (hg : Kills g) (q : Queue) (hd : Workers.Inv d)
    {w : Worker} (hw : w ∈ d.workers) (id : ℕ) :
    ∀ v ∈ (assign { d with queue := q, workers := d.workers.map g } id w).workers,
      v.pid = w.pid ∧ v.state = .running ∧ v.event = some id ∨ v.pid ≠ w.pid ∧ ∃ u ∈ d.workers,
        u.pid = v.pid ∧ v.event = u.event ∧ (v.state = .idle → u.state = .idle) := by
  intro v hv
  simp only [assign,setEventState,updateWorker,workerRef,List.map_map] at hv
  obtain ⟨u,hu,rfl⟩ := List.mem_map.mp hv
  have hgu : (g u).id = u.id ∧ (g u).pid = u.pid ∧ (g u).event = u.event ∧ ((g u).state = .idle → u.state = .idle) := by
    rcases hg u with h | h <;> simp [h]
  by_cases huw : u.id = w.id
  · obtain rfl := hd.eq_of_id hu hw huw
    exact Or.inl (by simp [hgu])
  · refine Or.inr ⟨fun hp => huw (congrArg (·.id) (hd.eq_of_pid hu hw ?_)),u,hu,?_⟩
    · simpa [hgu,huw] using hp
    · simpa [hgu,huw] using hgu.2.2.2

theorem Mail.started (hm : Mail d boxes sent) (hd : Workers.Inv d) (hd' : Workers.Inv d')
    (hh : History d.queue sent) {id : ℕ} {o : StartOracle} (hf : Fresh d (.start id o))
    (hunread : ∀ pid ∈ o.fork, pid ∉ d.messages) (h : startEvent d id o = some d') :
    Mail d' (handOver d boxes id o) sent := by
  have hstep : Daemon.step d (.start id o) = some d' := h
  rcases start_hands boxes h with ⟨hover,hprocs,hmsgs,g,hg,hworkers⟩ |
    ⟨e,he,rfl,hq,g,hg,⟨w,hw,hidle,hl,hd₁,hover⟩ | ⟨pid,hfork,hu,hd₁,hover⟩⟩ <;> rw [hover]
  · exact hm.kills hd hd' hstep hg hworkers hmsgs fun p hp hl => ⟨p,hprocs ▸ hp,hl,rfl,rfl⟩
  all_goals have hnew : ∀ y ∈ sent, y.id ≠ e.id := fun y hy hid => hh.started y hy e he hid.symm hq
  · obtain ⟨p,hp,hlive⟩ := List.any_eq_true.mp hl
    simp only [decide_eq_true_eq] at hlive
    obtain ⟨hpid,hlive⟩ := hlive
    have hzero := hm.idle p hp hlive w hw hpid.symm hidle
    simp only [pending,Nat.add_eq_zero_iff,List.length_eq_zero_iff,List.count_eq_zero,hpid] at hzero
    rw [hzero.2,List.nil_append]
    subst hd₁
    refine hm.handed hd hd' hstep he hnew rfl hzero.1 (fun p' hp' hl' => ?_) (assign_workers hg _ hd hw e.id)
    obtain ⟨p,hp,rfl⟩ := List.mem_map.mp hp'
    split_ifs at hl' ⊢ with hpw
    · have hload : load p = 0 := by
        rw [← hm.counts p hp hl',hpw,hzero.2]
        rfl
      refine Or.inl ⟨hpw,?_⟩
      simp only [load] at hload ⊢
      omega
    · exact Or.inr ⟨hpw,hp⟩
  · subst hd₁
    have hne : ∀ p ∈ d.procs, p.pid ≠ pid := fun p hp hpid => by
      have := List.any_eq_false.mp hu p hp
      simp [hpid] at this
    refine hm.handed hd hd' hstep he hnew rfl (hunread pid hfork) (fun p hp _ => ?_) fun v hv => ?_
    · rcases List.mem_append.mp hp with hp | hp
      · exact Or.inr ⟨hne p hp,hp⟩
      · rw [List.mem_singleton.mp hp]
        exact Or.inl ⟨rfl,rfl⟩
    · rcases List.mem_append.mp hv with hv | hv
      · obtain ⟨u,huw,rfl⟩ := List.mem_map.mp hv
        have hgu : (g u).pid = u.pid ∧ (g u).event = u.event ∧ ((g u).state = .idle → u.state = .idle) := by
          rcases hg u with h | h <;> simp [h]
        refine Or.inr ⟨fun hp => ?_,u,huw,hgu.1.symm,hgu.2⟩
        have := hf u huw (by rw [hfork,← hp,hgu.1])
        rw [← hgu.1,hp,hu] at this
        cases this
      · rw [List.mem_singleton.mp hv]
        exact Or.inl ⟨rfl,rfl,rfl⟩

theorem Mail.quiet (hm : Mail d boxes sent) (hd : Workers.Inv d) {pid : ℕ} (h : workerStep d pid a = some d')
    (hquiet : ∀ p r, processStep p a = some r → isDead r.1 ∨ ¬isDead p ∧ load r.1 = load p ∧ r.2 = []) :
    Mail d' boxes sent := by
  refine hm.worker hd h (fun _ _ => rfl) (fun _ hy => Or.inl hy) fun p hp hpid r hr => ?_
  refine (hquiet p r hr).imp_right ?_
  rintro ⟨hl,hload,hmsgs⟩
  refine ⟨hl,?_,by simp [hmsgs],Or.inr ⟨rfl,rfl⟩⟩
  rw [hload,← hpid]
  exact hm.counts p hp hl

theorem Mail.done (hm : Mail d boxes sent) (hd : Workers.Inv d) {pid : ℕ} (h : workerStep d pid a = some d')
    (hdone : ∀ p r, processStep p a = some r → ¬isDead p ∧ load p = load r.1+1) (xs : List Event)
    (hxs : ∀ y ∈ xs, ∃ w ∈ d.workers, w.pid = pid ∧ w.event = some y.id) :
    Mail d' (take boxes pid) (sent ++ xs) := by
  refine hm.worker hd h (fun i hi => Function.update_of_ne hi _ _) (fun y hy => (List.mem_append.mp hy).imp_right (hxs y))
    fun p hp hpid r hr => Or.inr ?_
  obtain ⟨hl,hload⟩ := hdone p r hr
  have hcounts := hm.counts p hp hl
  have hsingle := hm.single p hp hl
  rw [hpid] at hcounts
  simp only [pending,hpid] at hsingle
  have hmsgs : r.2.count pid ≤ 1 := by
    rcases processStep_messages hr with hr | hr <;> simp [hr,hpid]
  have hlen : (take boxes pid pid).length = load r.1 := by
    simp only [take,Function.update_self,List.length_tail]
    omega
  refine ⟨hl,hlen,by omega,Or.inl (List.length_eq_zero_iff.mp ?_)⟩
  omega

/-- The device in work is the one of the worker's event, which runs and was not broadcast. -/
theorem Mail.inWork (hm : Mail d boxes sent) (hd : Workers.Inv d) {p : Process} (hp : p ∈ d.procs)
    (hph : p.phase = .handling) {w : Worker} (hw : w ∈ d.workers) (hwp : w.pid = p.pid) (hev : w.event ≠ none) :
    ∃ e ∈ d.queue.events, boxes p.pid = [plain e] ∧ e.state = .running ∧ w.event = some e.id ∧
      ∀ y ∈ sent, y.id ≠ e.id := by
  have hl : ¬isDead p := by simp [isDead,hph]
  have hcounts := hm.counts p hp hl
  have hsingle := hm.single p hp hl
  simp only [pending,load,hph,if_true] at hcounts hsingle
  obtain ⟨x,hx⟩ := List.length_eq_one_iff.mp (show (boxes p.pid).length = 1 by omega)
  obtain ⟨i,hi⟩ := Option.ne_none_iff_exists'.mp hev
  obtain ⟨⟨e,he,rfl,rfl⟩,hsent⟩ := hm.current p hp hl w hw hwp i hi x (by simp [hx])
  obtain ⟨e',he',hid,hrun⟩ := (hd.running e.id).mpr ⟨w,hw,hi⟩
  obtain rfl := hd.addresses.eq_of_id he' he hid
  exact ⟨e',he,hx,hrun,hi,hsent⟩

end Mail

theorem step_nodup {d d' : Daemon.State} {a : Daemon.Act} (hnd : (d.procs.map (·.pid)).Nodup)
    (h : Daemon.step d a = some d') : (d'.procs.map (·.pid)).Nodup := by
  cases a with
  | insert dev => cases h; exact hnd
  | start id o =>
    have hstart : startEvent d id o = some d' := h
    rcases start_hands (fun _ => []) hstart with ⟨_,hprocs,_⟩ | ⟨e,_,_,_,g,_,⟨w,_,_,_,rfl,_⟩ | ⟨pid,_,hu,rfl,_⟩⟩
    · exact hprocs ▸ hnd
    · have hpids : ∀ p : Process, (if p.pid = w.pid then { p with inbox := p.inbox+1 } else p).pid = p.pid :=
        fun p => by split_ifs <;> rfl
      simpa [assign,setEventState,updateWorker,workerRef,Function.comp_def,hpids] using hnd
    · have hne : ∀ p ∈ d.procs, p.pid ≠ pid := fun p hp hpid => by
        have := List.any_eq_false.mp hu p hp
        simp [hpid] at this
      simpa [forked,setEventState,List.nodup_append] using ⟨hnd,hne⟩
  | returned | reap _ | expire _ | kill | cleanup | setMax _ | fail _ _ | handled _ _ | leave _ | goOn _ | receive _ _
  | readSigterm _ | pollFails _ | crash _ _ => exact hnd.sublist (step_procs id h)

theorem inv_init : Inv {} :=
  ⟨Workers.inv_init,⟨inv_empty,Addresses.empty,by simp [Serialization.Serial]⟩,List.nodup_nil,
    ⟨by simp,by simp,by simp,by simp⟩,⟨by simp,by simp,by simp,List.Pairwise.nil⟩⟩

theorem Inv.sends {s : State} (hs : Inv s) {pid : ℕ} {p : Process} (hp : findProcess s.daemon pid = some p)
    (hph : p.phase = .handling) (hev : ∃ w ∈ s.daemon.workers, w.pid = pid ∧ w.event ≠ none) :
    ((s.boxes pid).take 1).length = 1 ∧
      (∀ y ∈ (s.boxes pid).take 1, ∃ w ∈ s.daemon.workers, w.pid = pid ∧ w.event = some y.id) ∧
      History s.daemon.queue (s.sent ++ (s.boxes pid).take 1) := by
  obtain ⟨hmem,rfl⟩ := findProcess_some hp
  obtain ⟨w,hw,hwp,hev⟩ := hev
  obtain ⟨e,he,hbox,hrun,hi,hnew⟩ := hs.mail.inWork hs.workers hmem hph hw hwp hev
  rw [hbox]
  refine ⟨rfl,fun y hy => ⟨w,hw,hwp,?_⟩,hs.history.broadcast hs.queue he hrun hnew⟩
  rw [List.mem_singleton.mp hy]
  exact hi

theorem workerStep_process {d d' : Daemon.State} {pid : ℕ} {a : Daemon.Act} (h : workerStep d pid a = some d') :
    ∃ p r, findProcess d pid = some p ∧ processStep p a = some r := by
  obtain ⟨p,hp,h⟩ := Option.bind_eq_some_iff.mp h
  obtain ⟨r,hr,_⟩ := Option.map_eq_some_iff.mp h
  exact ⟨p,r,hp,hr⟩

/-- A step keeps the mail and the history, and a broadcast sends one device. -/
theorem Inv.sent {s : State} (hs : Inv s) {a : Act} (ha : Orderly s a) {d : Daemon.State}
    (hw : inWork s.daemon a = true) (h : Daemon.step s.daemon (daemonAct a) = some d) :
    Mail d (after s a d).boxes (after s a d).sent ∧ History s.daemon.queue (after s a d).sent ∧
      (after s a d).sent.length = s.sent.length + if (broadcaster a).isSome then 1 else 0 := by
  obtain ⟨_,hfresh,hev,hunread⟩ := ha
  have hd := hs.workers
  have hd' : Workers.Inv d := step_inv hd hfresh h
  have hm := hs.mail
  have hdone : ∀ pid sigterm (p : Process) r, processStep p (.handled pid sigterm) = some r →
      p.phase = .handling ∧ ¬isDead p ∧ load p = load r.1+1 := by
    intro pid sigterm p r hr
    simp only [processStep] at hr
    split_ifs at hr with hc
    cases hr
    simp [isDead,load,hc.1]
  cases a with
  | skipped pid sigterm =>
    have hdone' := hm.done hd (a := .handled pid sigterm) h (fun p r hr => (hdone pid sigterm p r hr).2) []
      (by simp)
    rw [List.append_nil] at hdone'
    exact ⟨hdone',hs.history,rfl⟩
  | broken pid sig =>
    obtain ⟨p,_,hp,_⟩ := workerStep_process (a := .crash pid sig) h
    obtain ⟨hlen,hxs,hh⟩ := hs.sends hp (by simpa [inWork,hp] using hw) (hev pid rfl)
    refine ⟨hm.worker hd (a := .crash pid sig) h (fun _ _ => rfl) (fun y hy => (List.mem_append.mp hy).imp_right (hxs y))
      fun p _ _ r hr => Or.inl ?_,hh,by simpa [after,broadcaster] using hlen⟩
    simp only [processStep] at hr
    split_ifs at hr
    cases hr
    rfl
  | daemon a =>
    cases a with
    | start id o => exact ⟨hm.started hd hd' hs.history hfresh hunread h,hs.history,rfl⟩
    | handled pid sigterm =>
      obtain ⟨p,r,hp,hr⟩ := workerStep_process (a := .handled pid sigterm) h
      obtain ⟨hlen,hxs,hh⟩ := hs.sends hp (hdone pid sigterm p r hr).1 (hev pid rfl)
      exact ⟨hm.done hd (a := .handled pid sigterm) h (fun p r hr => (hdone pid sigterm p r hr).2) _ hxs,hh,
        by simpa [after,broadcaster] using hlen⟩
    | receive pid usable =>
      refine ⟨?_,?_,?_⟩
      · cases usable with
        | true =>
          refine hm.quiet hd (a := .receive pid true) h fun p r hr => Or.inr ?_
          simp only [processStep,if_true] at hr
          split_ifs at hr with hc
          cases hr
          refine ⟨by simp [isDead,hc.1],?_,rfl⟩
          simp only [load,hc.1,if_true,reduceCtorEq,if_false]
          omega
        | false =>
          have hdone' := hm.done hd (a := .receive pid false) h (fun p r hr => ?_) [] (by simp)
          · rwa [List.append_nil] at hdone'
          · simp only [processStep,Bool.false_eq_true,if_false] at hr
            split_ifs at hr with hc
            cases hr
            refine ⟨by simp [isDead,hc.1],?_⟩
            simp only [load,hc.1,reduceCtorEq,if_false]
            omega
      · cases usable <;> exact hs.history
      · cases usable <;> rfl
    | insert dev =>
      refine ⟨?_,hs.history,rfl⟩
      cases h
      exact hm.kills (a := .insert dev) hd hd' rfl kills_id (by simp) rfl fun p hp hl => ⟨p,hp,hl,rfl,rfl⟩
    | returned => exact ⟨hm.returned hd hd' h,hs.history,rfl⟩
    | reap pid => exact ⟨hm.reaped hd hd' h,hs.history,rfl⟩
    | expire id => exact ⟨hm.expired hd hd' hfresh h,hs.history,rfl⟩
    | kill =>
      refine ⟨?_,hs.history,rfl⟩
      cases h
      exact hm.killed hd hd'
    | cleanup =>
      refine ⟨?_,hs.history,rfl⟩
      cases h
      exact hm.kills (a := .cleanup) hd hd' rfl kills_id (by simp) rfl fun p hp hl => ⟨p,hp,hl,rfl,rfl⟩
    | setMax n =>
      refine ⟨?_,hs.history,rfl⟩
      cases h
      exact hm.kills (a := .setMax n) hd hd' rfl kills_id (by simp) rfl fun p hp hl => ⟨p,hp,hl,rfl,rfl⟩
    | goOn pid =>
      refine ⟨hm.quiet hd (a := .goOn pid) h fun p r hr => Or.inr ?_,hs.history,rfl⟩
      simp only [processStep] at hr
      split_ifs at hr with hc
      cases hr
      simp [isDead,load,hc]
    | fail _ _ | leave _ | readSigterm _ | pollFails _ | crash _ _ =>
      refine ⟨hm.quiet hd h fun p r hr => Or.inl ?_,hs.history,rfl⟩
      simp only [processStep] at hr
      split_ifs at hr
      cases hr
      rfl

theorem Inv.step {s s' : State} {a : Act} (hs : Inv s) (ha : Orderly s a) (h : step s a = some s') :
    Inv s' ∧ s'.sent.length = s.sent.length + if (broadcaster a).isSome then 1 else 0 := by
  simp only [Broadcast.step] at h
  split_ifs at h with hw
  obtain ⟨d,hd,rfl⟩ := Option.map_eq_some_iff.mp h
  obtain ⟨hmail,hhist,hlen⟩ := hs.sent ha hw hd
  have hdaemon : (after s a d).daemon = d := by
    unfold after
    split <;> rfl
  refine ⟨⟨?_,?_,?_,?_,?_⟩,hlen⟩ <;> rw [hdaemon]
  · exact step_inv hs.workers ha.2.1 hd
  · exact Serialization.step_serial hs.queue ha.1 hd
  · exact step_nodup hs.procs hd
  · exact hmail
  · exact hhist.step hs.queue.2.1 ha.1 hd

theorem run_inv {s s' : State} {as : List Act} (hs : Inv s) (hok : Along step Orderly s as)
    (h : run step s as = some s') :
    Inv s' ∧ s'.sent.length = s.sent.length + as.countP fun a => (broadcaster a).isSome := by
  induction as generalizing s with
  | nil =>
    cases h
    exact ⟨hs,rfl⟩
  | cons a as ih =>
    obtain ⟨s₁,h₁,hrest⟩ := run_cons_some.mp h
    obtain ⟨ha,has⟩ := along_cons h₁ hok
    obtain ⟨hs₁,hlen⟩ := hs.step ha h₁
    obtain ⟨hs',hlen'⟩ := ih hs₁ has hrest
    refine ⟨hs',?_⟩
    rw [hlen',hlen,List.countP_cons]
    omega

/-- The listeners get one device for each broadcast, no event twice, and never an event before an
earlier one of the same device, or of a device above or below it. -/
theorem broadcasts_in_order {s : State} {as : List Act} (hok : Along step Orderly {} as)
    (h : run step {} as = some s) :
    s.sent.length = (as.countP fun a => (broadcaster a).isSome) ∧
      s.sent.Pairwise fun x y => x.id ≠ y.id ∧ (y.seqnum < x.seqnum → ¬Conflicts x y) := by
  obtain ⟨hs,hlen⟩ := run_inv inv_init hok h
  refine ⟨?_,hs.history.ordered⟩
  simpa using hlen

/-- A disk and its partition with one worker: the partition waits until the disk was broadcast, and
the worker dies between its second broadcast and the result. -/
def diskRun : List Act :=
  [.daemon (.setMax 1), .daemon (.insert { seqnum := 1, devpath := str "/block/sda" }),
   .daemon (.insert { seqnum := 2, devpath := str "/block/sda/sda1" }), .daemon (.start 0 { fork := some 100 }),
   .daemon (.start 1 {}), .daemon (.handled 100 false), .daemon .returned, .daemon (.start 1 {}),
   .daemon (.goOn 100), .daemon (.receive 100 true), .broken 100 9, .daemon (.reap 100)]

theorem broadcasts_in_order_disk :
    ∃ s, run step {} diskRun = some s ∧ s.sent.map (·.seqnum) = [1,2] ∧ s.daemon.queue.events = [] ∧
      s.sent.length = (diskRun.countP fun a => (broadcaster a).isSome) ∧
      s.sent.Pairwise fun x y => x.id ≠ y.id ∧ (y.seqnum < x.seqnum → ¬Conflicts x y) :=
  ⟨_,rfl,rfl,rfl,broadcasts_in_order (by decide) (show run step {} diskRun = some _ from rfl)⟩

end Broadcast
end Udev
