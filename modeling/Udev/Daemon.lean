import Udev.EventQueue

/-! The main process of udevd, its worker processes, and what lies between
them: the device messages to a worker, the result messages back, the signals
and the exit statuses. One action is one round of a loop of the main process
or one step of a worker, so every interleaving of both is a run. -/
namespace Udev
namespace Daemon

open Runs EventQueue

inductive WorkerState
  | undef | running | idle | killed
  deriving DecidableEq, Repr

/-- `struct worker`. The field `event` is the address of the event it runs. -/
structure Worker where
  id : ℕ
  refcount : ℤ
  pid : ℕ
  state : WorkerState := .undef
  event : Option ℕ := none
  deriving DecidableEq, Repr

inductive Status
  | exited (code : ℕ) | signaled (sig : ℕ)
  deriving DecidableEq, Repr

/-- Where the loop of a worker stands: it handles a device, it has sent the
result (and may have read a SIGTERM while it ran a program), it waits for the
next message, or it is dead and not yet reaped. -/
inductive Phase
  | handling | sent (sigterm : Bool) | waiting | dead (status : Status)
  deriving DecidableEq, Repr

/-- A forked process: its unread device messages and whether SIGTERM is pending. -/
structure Process where
  pid : ℕ
  phase : Phase := .handling
  inbox : ℕ := 0
  sigterm : Bool := false
  deriving DecidableEq, Repr

/-- The state of the main process and of the kernel around it. The list `procs`
has the processes that were not reaped; `messages` has the senders of the unread
results; `useAfterFree` records that a freed worker was used. -/
structure State where
  queue : Queue := {}
  workers : List Worker := []
  nextWorker : ℕ := 0
  children : ℤ := 0
  childrenMax : ℤ := 8
  procs : List Process := []
  messages : List ℕ := []
  useAfterFree : Bool := false
  deriving DecidableEq, Repr

def unreaped (d : State) (pid : ℕ) : Bool := d.procs.any (·.pid = pid)

def isDead (p : Process) : Bool := match p.phase with | .dead _ => true | _ => false

def listening (d : State) (pid : ℕ) : Bool := d.procs.any fun p => p.pid = pid ∧ ¬isDead p

def findPid (d : State) (pid : ℕ) : Option Worker := d.workers.find? (·.pid = pid)

def findWorker (d : State) (id : ℕ) : Option Worker := d.workers.find? (·.id = id)

def updateWorker (d : State) (id : ℕ) (f : Worker → Worker) : State :=
  { d with workers := d.workers.map fun w => if w.id = id then f w else w }

def touch (d : State) (id : ℕ) : State :=
  { d with useAfterFree := d.useAfterFree || (findWorker d id).isNone }

def setProcess (d : State) (p : Process) : State :=
  { d with procs := d.procs.map fun v => if v.pid = p.pid then p else v }

def deleteEvent (d : State) (id : ℕ) : State :=
  { d with queue := eventQueueDelete d.queue id }

def setEventState (d : State) (id : ℕ) (st : EventState) : State :=
  { d with queue := update d.queue id fun e => { e with state := st } }

def workerRef (d : State) (id : ℕ) : State :=
  updateWorker d id fun w => { w with refcount := w.refcount+1 }

def workerCleanup (d : State) (id : ℕ) : State :=
  { d with workers := d.workers.filter (·.id ≠ id), children := d.children-1 }

def workerUnref (d : State) (id : ℕ) : State :=
  match findWorker d id with
  | none => { d with useAfterFree := true }
  | some w =>
    if w.refcount-1 > 0 then updateWorker d id fun w => { w with refcount := w.refcount-1 }
    else workerCleanup d id

/-- What the kernel answers while an event is started: the workers whose socket
refuses the message, and what `fork` returns. -/
structure StartOracle where
  refuses : List ℕ := []
  fork : Option ℕ := none
  deriving DecidableEq, Repr

/-- The parent side of `worker_new`. No new worker leaves the event queued; the
kernel never returns the number of a process that still has to be reaped. -/
def workerNew (d : State) (id : ℕ) : Option ℕ → Option State
  | none => some (setEventState d id .queued)
  | some pid =>
    if unreaped d pid then none
    else
      let w : Worker :=
        { id := d.nextWorker, refcount := 2, pid := pid, state := .running, event := some id }
      let d := setEventState d id .running
      some { d with
        workers := d.workers ++ [w]
        nextWorker := d.nextWorker+1
        children := d.children+1
        procs := d.procs ++ [{ pid := pid }] }

def assign (d : State) (id : ℕ) (w : Worker) : State :=
  let d := updateWorker (workerRef d w.id) w.id fun w => { w with event := some id, state := .running }
  let d := setEventState d id .running
  { d with procs := d.procs.map fun p => if p.pid = w.pid then { p with inbox := p.inbox+1 } else p }

/-- The loop of `event_run` over the workers: the first idle one that takes the
message gets the event, one that refuses it is killed. -/
def eventRunLoop (d : State) (id : ℕ) (refuses : List ℕ) : List Worker → State × Bool
  | [] => (d,false)
  | w::ws =>
    if w.state ≠ .idle then eventRunLoop d id refuses ws
    else if w.pid ∈ refuses ∨ ¬listening d w.pid then
      eventRunLoop (updateWorker d w.id fun w => { w with state := .killed }) id refuses ws
    else (assign d id w,true)

def eventRun (d : State) (id : ℕ) (o : StartOracle) : Option State :=
  let r := eventRunLoop d id o.refuses d.workers
  if r.2 then some r.1
  else if r.1.children ≥ r.1.childrenMax then some r.1
  else workerNew r.1 id o.fork

/-- One round of the loop of `event_queue_start`. -/
def startEvent (d : State) (id : ℕ) (o : StartOracle) : Option State :=
  match find? d.queue id with
  | none => none
  | some e =>
    if e.state ≠ .queued then some d
    else
      let r := testBusy d.queue e
      let d := { d with queue := r.2 }
      if r.1 then some d else eventRun d id o

/-- One round of the loop of `worker_returned`, for the message of a process. -/
def workerReturned (d : State) (pid : ℕ) : State :=
  match findPid d pid with
  | none => d
  | some w =>
    let d := w.event.elim d (deleteEvent d)
    let d := updateWorker d w.id fun w =>
      { w with event := none, state := if w.state ≠ .killed then .idle else w.state }
    workerUnref d w.id

/-- One round of the SIGCHLD branch, for a reaped process. The event is released
only if the process failed; then the reference of the running state goes first. -/
def handleSigchld (d : State) (pid : ℕ) (status : Status) : State :=
  match findPid d pid with
  | none => d
  | some w =>
    let d :=
      if status = .exited 0 then d
      else w.event.elim d fun id => workerUnref (deleteEvent d id) w.id
    workerUnref d w.id

/-- One round of the loop over hanging events. The worker is read again after its
reference was dropped: if that freed it, its old contents are what is read. -/
def expire (d : State) (w : Worker) (id : ℕ) : State :=
  let d := updateWorker d w.id fun w => { w with state := .killed }
  let d := touch (workerUnref d w.id) w.id
  updateWorker (deleteEvent d id) w.id fun w => { w with event := none }

def workerKill (d : State) : State :=
  { d with
    workers := d.workers.map fun w => { w with state := .killed }
    procs := d.procs.map fun p =>
      if d.workers.any fun w => w.pid = p.pid ∧ w.state ≠ .killed then { p with sigterm := true }
      else p }

/-- The main process inserts and starts events, reads a result, reaps a process,
expires a worker, kills all workers, drops the queued events, or takes a new
limit. A worker fails to set up, handles its device and sends the result, then
leaves if it has seen SIGTERM or goes on to wait; waiting, it receives a device
message (which may be unusable), reads SIGTERM, or fails to poll; at any time a
signal may end it, which is also how SIGKILL takes effect. -/
inductive Act
  | insert (dev : Device) | start (id : ℕ) (o : StartOracle) | returned | reap (pid : ℕ)
  | expire (worker : ℕ) | kill | cleanup | setMax (n : ℤ)
  | fail (pid rc : ℕ) | handled (pid : ℕ) (sigterm : Bool) | leave (pid : ℕ) | goOn (pid : ℕ)
  | receive (pid : ℕ) (usable : Bool) | readSigterm (pid : ℕ) | pollFails (pid : ℕ)
  | crash (pid sig : ℕ)
  deriving DecidableEq, Repr

def processStep (p : Process) : Act → Option (Process × List ℕ)
  | .fail _ rc =>
    if p.phase = .handling ∧ rc ≠ 0 then some ({ p with phase := .dead (.exited rc) },[]) else none
  | .handled _ sigterm =>
    if p.phase = .handling ∧ (sigterm → p.sigterm) then
      some ({ p with phase := .sent sigterm, sigterm := p.sigterm && !sigterm },[p.pid])
    else none
  | .leave _ =>
    if p.phase = .sent true then some ({ p with phase := .dead (.exited 0) },[]) else none
  | .goOn _ => if p.phase = .sent false then some ({ p with phase := .waiting },[]) else none
  | .receive _ usable =>
    if p.phase = .waiting ∧ 0 < p.inbox then
      some ({ p with inbox := p.inbox-1, phase := if usable then .handling else .waiting },[])
    else none
  | .readSigterm _ =>
    if p.phase = .waiting ∧ p.sigterm then some ({ p with phase := .dead (.exited 0) },[]) else none
  | .pollFails _ =>
    if p.phase = .waiting then some ({ p with phase := .dead (.exited 0) },[]) else none
  | .crash _ sig =>
    if isDead p then none else some ({ p with phase := .dead (.signaled sig) },[])
  | _ => none

def findProcess (d : State) (pid : ℕ) : Option Process := d.procs.find? (·.pid = pid)

theorem findProcess_some {d : State} {pid : ℕ} {p : Process} (h : findProcess d pid = some p) :
    p ∈ d.procs ∧ p.pid = pid :=
  ⟨List.mem_of_find?_eq_some h,by simpa using List.find?_some h⟩

def workerStep (d : State) (pid : ℕ) (a : Act) : Option State :=
  (findProcess d pid).bind fun p => (processStep p a).map fun r =>
    { setProcess d r.1 with messages := d.messages ++ r.2 }

def step (d : State) : Act → Option State
  | .insert dev => some { d with queue := eventQueueInsert d.queue dev }
  | .start id o => startEvent d id o
  | .returned =>
    match d.messages with
    | [] => none
    | pid::rest => some (workerReturned { d with messages := rest } pid)
  | .reap pid =>
    match findProcess d pid with
    | some ⟨_,.dead status,_,_⟩ =>
      some (handleSigchld { d with procs := d.procs.filter (·.pid ≠ pid) } pid status)
    | _ => none
  | .expire id =>
    match findWorker d id with
    | some w =>
      if w.state = .running then w.event.map fun e => Daemon.expire d w e else none
    | none => none
  | .kill => some (workerKill d)
  | .cleanup => some { d with queue := eventQueueCleanup d.queue .queued }
  | .setMax n => some { d with childrenMax := n }
  | a@(.fail pid _) | a@(.handled pid _) | a@(.leave pid) | a@(.goOn pid) | a@(.receive pid _)
  | a@(.readSigterm pid) | a@(.pollFails pid) | a@(.crash pid _) => workerStep d pid a

/-- The workers that refused a message were killed, the others are as they were. -/
def Kills (g : Worker → Worker) : Prop := ∀ w, g w = w ∨ g w = { w with state := .killed }

theorem kills_id : Kills id := fun _ => Or.inl rfl

theorem Kills.update {g : Worker → Worker} (hg : Kills g) (id : ℕ) :
    Kills fun w => g (if w.id = id then { w with state := .killed } else w) := by
  intro w
  dsimp only
  split_ifs with h
  · rcases hg { w with state := .killed } with h | h <;> exact Or.inr h
  · exact hg w

theorem eventRunLoop_cases (d : State) (id : ℕ) (refuses : List ℕ) (ws : List Worker) :
    ∃ g, Kills g ∧
      (eventRunLoop d id refuses ws = ({ d with workers := d.workers.map g },false) ∨
      ∃ w ∈ ws, w.state = .idle ∧
        eventRunLoop d id refuses ws = (assign { d with workers := d.workers.map g } id w,true)) := by
  induction ws generalizing d with
  | nil => exact ⟨_,kills_id,Or.inl (by simp [eventRunLoop])⟩
  | cons w ws ih =>
    simp only [eventRunLoop]
    split_ifs with h₁ h₂
    · obtain ⟨g,hg,h⟩ := ih d
      refine ⟨g,hg,h.imp_right ?_⟩
      rintro ⟨v,hv,hs,he⟩
      exact ⟨v,List.mem_cons_of_mem w hv,hs,he⟩
    · obtain ⟨g,hg,h⟩ := ih (updateWorker d w.id fun w => { w with state := .killed })
      refine ⟨_,hg.update w.id,?_⟩
      simp only [updateWorker,List.map_map,Function.comp_def] at h
      refine h.imp_right ?_
      rintro ⟨v,hv,hs,he⟩
      exact ⟨v,List.mem_cons_of_mem w hv,hs,he⟩
    · exact ⟨_,kills_id,Or.inr ⟨w,by simp,by simpa using h₁,by simp⟩⟩

def forked (d : State) (id pid : ℕ) : State :=
  { setEventState d id .running with
    workers := d.workers ++
      [{ id := d.nextWorker, refcount := 2, pid := pid, state := .running, event := some id }]
    nextWorker := d.nextWorker+1
    children := d.children+1
    procs := d.procs ++ [{ pid := pid }] }

theorem startEvent_cases {d d' : State} {id : ℕ} {o : StartOracle} (h : startEvent d id o = some d') :
    ∃ e ∈ d.queue.events, e.id = id ∧
      (e.state ≠ .queued ∧ d' = d ∨
      e.state = .queued ∧ ∃ g, Kills g ∧
        let d₁ := { d with queue := (testBusy d.queue e).2, workers := d.workers.map g }
        (d' = d₁ ∨ d' = setEventState d₁ id .queued ∨
        (testBusy d.queue e).1 = false ∧
          ((∃ w ∈ d.workers, w.state = .idle ∧ d' = assign d₁ id w) ∨
          ∃ pid, o.fork = some pid ∧ unreaped d pid = false ∧ d' = forked d₁ id pid))) := by
  simp only [startEvent] at h
  split at h
  · cases h
  rename_i e he
  obtain ⟨hmem,hid⟩ := mem_of_find? he
  refine ⟨e,hmem,hid,?_⟩
  split_ifs at h with hst hbusy
  · exact Or.inl ⟨hst,(Option.some.inj h).symm⟩
  · refine Or.inr ⟨by simpa using hst,_,kills_id,Or.inl ?_⟩
    simpa using (Option.some.inj h).symm
  · have hfree : (testBusy d.queue e).1 = false := by simpa using hbusy
    refine Or.inr ⟨by simpa using hst,?_⟩
    obtain ⟨g,hg,hr⟩ := eventRunLoop_cases { d with queue := (testBusy d.queue e).2 } id o.refuses d.workers
    refine ⟨g,hg,?_⟩
    unfold eventRun at h
    rcases hr with hr | ⟨w,hw,hs,hr⟩
    · simp only [hr,Bool.false_eq_true,if_false] at h
      split_ifs at h with hmax
      · exact Or.inl (Option.some.inj h).symm
      · cases ho : o.fork with
        | none =>
          rw [ho] at h
          exact Or.inr (Or.inl (Option.some.inj h).symm)
        | some pid =>
          simp only [ho,workerNew] at h
          split_ifs at h with hu
          exact Or.inr (Or.inr ⟨hfree,Or.inr ⟨pid,rfl,by simpa [unreaped] using hu,
            (Option.some.inj h).symm⟩⟩)
    · simp only [hr,if_true,Option.some.injEq] at h
      exact Or.inr (Or.inr ⟨hfree,Or.inl ⟨w,hw,hs,h.symm⟩⟩)

theorem processStep_pid {p : Process} {a : Act} {r : Process × List ℕ}
    (h : processStep p a = some r) : r.1.pid = p.pid := by
  cases a <;> simp only [processStep] at h <;>
    first
    | cases h
    | (split_ifs at h <;> cases h <;> rfl)

theorem workerStep_cases {d d' : State} {pid : ℕ} {a : Act} (h : workerStep d pid a = some d') :
    ∃ p ms, p.pid = pid ∧ d' = { setProcess d p with messages := d.messages ++ ms } := by
  obtain ⟨p,hp,h⟩ := Option.bind_eq_some_iff.mp h
  obtain ⟨r,hr,rfl⟩ := Option.map_eq_some_iff.mp h
  exact ⟨r.1,r.2,(processStep_pid hr).trans (findProcess_some hp).2,rfl⟩

end Daemon
end Udev
