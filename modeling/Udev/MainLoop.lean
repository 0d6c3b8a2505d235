import Udev.Ownership

/-! The main loop of udevd with the sockets it reads, the file that tells
`udevadm settle` whether events are pending, and the clients at the other end.
Between any two statements of a round the workers, the kernel and the clients
may take steps, so a run is any interleaving of them with the loop. -/
namespace Udev
namespace MainLoop

open Runs EventQueue Daemon

/-- The sources that `epoll_wait` reported. -/
structure Flags where
  isWorker : Bool := false
  isSignal : Bool := false
  isInotify : Bool := false
  isNetlink : Bool := false
  isCtrl : Bool := false
  deriving DecidableEq, Repr

/-- Where the main process stands in a round. In `hanging` and `starting` the
rest of the list is kept that the loop over workers or events goes through. -/
inductive Point
  | top | wait | hanging (workers : List ℕ) | config (f : Flags) | worker (f : Flags)
  | netlink (f : Flags) | start (f : Flags) | starting (f : Flags) (events : List ℕ)
  | signal (f : Flags) | reaping (f : Flags) | inotify (f : Flags) | ctrl (f : Flags)
  | left (gaveUp : Bool) | exited (gaveUp : Bool)
  deriving DecidableEq, Repr

inductive Signal
  | int | term | chld | hup | other
  deriving DecidableEq, Repr

/-- The type of `udev_ctrl_msg_wire` with the number that the type uses. -/
inductive CtrlMsg
  | unknown | setLogLevel (n : ℤ) | stopExecQueue | startExecQueue | reload | setEnv
  | setChildrenMax (n : ℤ) | ping | exit
  deriving DecidableEq, Repr

/-- How `udevadm settle` ended; all of these are `EXIT_SUCCESS`. -/
inductive Outcome
  | noConnection | nothingToWatch | found | empty
  deriving DecidableEq, Repr

/-- Where `adm_settle` stands: it waits for the answer to its ping, opens the
watch of the run directory, or looks at the files. -/
inductive Settle
  | pinging | opening | checking | done (o : Outcome)
  deriving DecidableEq, Repr

/-- The main process, and what lies between it and its clients: unread device
messages, pending signals, control connections not yet accepted (one without a
message is of no use to the main process), and those it has closed again. -/
structure State where
  daemon : Daemon.State := {}
  point : Point := .top
  udevExit : Bool := false
  stopExecQueue : Bool := false
  reload : Bool := false
  closed : Bool := false
  queueFile : Bool := false
  netlink : List Device := []
  kernelSeqnum : ℕ := 0
  signals : List Signal := []
  conns : List (ℕ × Option CtrlMsg) := []
  ctrlConn : Option ℕ := none
  answered : List ℕ := []
  settles : List (ℕ × Settle) := []
  nextClient : ℕ := 0
  deriving DecidableEq, Repr

/-- The head of a round. On exit the sources are closed, the queued events are
dropped and the workers killed; then the queue file is written or removed. -/
def round (s : State) (opens : Bool) : State :=
  let s :=
    if s.udevExit then
      { s with
        closed := true
        daemon := workerKill { s.daemon with queue := eventQueueCleanup s.daemon.queue .queued } }
    else s
  if s.udevExit ∧ s.daemon.queue.events = [] ∧ s.daemon.children = 0 then
    { s with point := .left false }
  else if s.daemon.queue.events ≠ [] then
    { s with queueFile := s.queueFile || opens, point := .wait }
  else { s with queueFile := false, point := .wait }

def timeout (s : State) : State :=
  if s.udevExit then { s with point := .left true }
  else
    let d := if s.daemon.queue.events = [] then workerKill s.daemon else s.daemon
    { s with daemon := d, point := .hanging (d.workers.map (·.id)) }

def checkHanging (d : Daemon.State) (id : ℕ) (overdue : Bool) : Option Daemon.State :=
  match findWorker d id with
  | none => some d
  | some w => if w.state = .running ∧ overdue then Daemon.step d (.expire id) else some d

def afterSignal (s : State) (f : Flags) : State :=
  { s with point := if s.udevExit then .top else .inotify f }

/-- `handle_signal`; the SIGCHLD branch goes on in its loop over `waitpid`. -/
def handleSignal (s : State) (f : Flags) : Signal → State
  | .int | .term => afterSignal { s with udevExit := true } f
  | .chld => { s with point := .reaping f }
  | .hup => afterSignal { s with reload := true } f
  | .other => afterSignal s f

def readSignal (s : State) (f : Flags) : Option Signal → Option State
  | none => if f.isSignal ∧ s.signals ≠ [] then none else some (afterSignal s f)
  | some g =>
    if f.isSignal ∧ g ∈ s.signals then
      some (handleSignal { s with signals := s.signals.erase g } f g)
    else none

/-- Close the connection of a client, which ends the wait of `ctrl_send`. -/
def answer (s : State) (id : ℕ) : State := { s with answered := id::s.answered }

/-- `handle_ctrl_msg`, for the message of a client or a connection without one. -/
def handleCtrlMsg (s : State) (id : ℕ) : Option CtrlMsg → State
  | some (.setLogLevel n) =>
    answer (if n ≥ 0 then { s with daemon := workerKill s.daemon } else s) id
  | some .stopExecQueue => answer { s with stopExecQueue := true } id
  | some .startExecQueue => answer { s with stopExecQueue := false } id
  | some .reload => answer { s with reload := true } id
  | some .setEnv => answer { s with daemon := workerKill s.daemon } id
  | some (.setChildrenMax n) =>
    answer (if n ≥ 0 then { s with daemon := { s.daemon with childrenMax := n } } else s) id
  | some .exit => { s with udevExit := true, ctrlConn := some id }
  | some .ping | some .unknown | none => answer s id

/-- Take one device message from the kernel into the queue, if it can be used. -/
def receiveDevice (s : State) (f : Flags) (unusable : Bool) : State :=
  if f.isNetlink then
    match s.netlink with
    | [] => s
    | dev::rest =>
      { s with
        daemon :=
          if unusable then s.daemon
          else { s.daemon with queue := eventQueueInsert s.daemon.queue dev }
        netlink := rest }
  else s

def acceptCtrl (s : State) (f : Flags) : State :=
  if f.isCtrl then
    match s.conns with
    | [] => s
    | (id,msg)::rest => handleCtrlMsg { s with conns := rest } id msg
  else s

/-- The statements of a round, each with what the kernel answers there. -/
inductive MainAct
  | round (opens : Bool) | wake (f : Flags) | interrupted | timeout | hang (overdue : Bool)
  | config (changed : Bool) | returned | receive (unusable : Bool) | start (o : StartOracle)
  | signal (sig : Option Signal) | reap (pid : Option ℕ) | inotify | ctrl | leave
  deriving DecidableEq, Repr

def mainStep (s : State) (a : MainAct) : Option State :=
  match a, s.point with
  | .round opens, .top => some (round s opens)
  | .wake f, .wait =>
    if s.closed ∧ (f.isNetlink ∨ f.isInotify ∨ f.isCtrl) then none
    else some { s with point := .config f }
  | .interrupted, .wait => some { s with point := .top }
  | .timeout, .wait => some (timeout s)
  | .hang _, .hanging [] => some { s with point := .config {} }
  | .hang overdue, .hanging (w::ws) =>
    (checkHanging s.daemon w overdue).map fun d => { s with daemon := d, point := .hanging ws }
  | .config changed, .config f =>
    if s.reload || changed then
      some { s with daemon := workerKill s.daemon, reload := false, point := .worker f }
    else some { s with point := .worker f }
  | .returned, .worker f =>
    if f.isWorker ∧ s.daemon.messages ≠ [] then
      (Daemon.step s.daemon .returned).map fun d => { s with daemon := d }
    else some { s with point := .netlink f }
  | .receive unusable, .netlink f => some (receiveDevice { s with point := .start f } f unusable)
  | .start _, .start f =>
    if s.daemon.queue.events ≠ [] ∧ ¬s.udevExit ∧ ¬s.stopExecQueue then
      some { s with point := .starting f (s.daemon.queue.events.map (·.id)) }
    else some { s with point := .signal f }
  | .start _, .starting f [] => some { s with point := .signal f }
  | .start o, .starting f (e::es) =>
    (startEvent s.daemon e o).map fun d => { s with daemon := d, point := .starting f es }
  | .signal sig, .signal f => readSignal s f sig
  | .reap none, .reaping f => if s.daemon.procs.any isDead then none else some (afterSignal s f)
  | .reap (some pid), .reaping _ =>
    (Daemon.step s.daemon (.reap pid)).map fun d => { s with daemon := d }
  | .inotify, .inotify f => some { s with point := .ctrl f }
  | .ctrl, .ctrl f => some (acceptCtrl { s with point := .top } f)
  | .leave, .left gaveUp =>
    some { s with
      queueFile := false
      answered := s.ctrlConn.toList ++ s.answered
      ctrlConn := none
      point := .exited gaveUp }
  | _, _ => none

/-- The step of `adm_settle`; `b` is what the call that it makes there returns:
the answer to the ping, the watch, or whether the file of `--exit-if-exists` is there. -/
def settleStep (s : State) (id : ℕ) (b : Bool) : Settle → Option Settle
  | .pinging =>
    if b then if id ∈ s.answered then some .opening else none
    else some (.done .noConnection)
  | .opening => some (if b then .checking else .done .nothingToWatch)
  | .checking =>
    some (if b then .done .found else if s.queueFile then .checking else .done .empty)
  | .done _ => none

def isWorkerAct : Daemon.Act → Bool
  | .fail .. | .handled .. | .leave _ | .goOn _ | .receive .. | .readSigterm _ | .pollFails _
  | .crash .. => true
  | _ => false

/-- A statement of the main loop, a step of a worker (whose death is signalled),
a device message or a signal from the kernel, a connection of a client that
sends a control message, or a step of `udevadm settle`. -/
inductive Act
  | main (a : MainAct) | worker (a : Daemon.Act) | uevent (dev : Device) | raise (sig : Signal)
  | connect (msg : Option CtrlMsg) | settle (pings : Bool) | settleStep (id : ℕ) (b : Bool)
  deriving DecidableEq, Repr

def step (s : State) : Act → Option State
  | .main a => mainStep s a
  | .worker a =>
    if isWorkerAct a then
      (Daemon.step s.daemon a).map fun d =>
        if d.procs.countP isDead = s.daemon.procs.countP isDead then { s with daemon := d }
        else { s with daemon := d, signals := .chld::s.signals }
    else none
  | .uevent dev =>
    if s.kernelSeqnum < dev.seqnum then
      some { s with netlink := s.netlink ++ [dev], kernelSeqnum := dev.seqnum }
    else none
  | .raise sig => some { s with signals := sig::s.signals }
  | .connect msg =>
    some { s with conns := s.conns ++ [(s.nextClient,msg)], nextClient := s.nextClient+1 }
  | .settle pings =>
    some { s with
      conns := if pings then s.conns ++ [(s.nextClient,some .ping)] else s.conns
      settles := s.settles ++ [(s.nextClient,if pings then .pinging else .opening)]
      nextClient := s.nextClient+1 }
  | .settleStep id b =>
    (s.settles.lookup id).bind fun p => (MainLoop.settleStep s id b p).map fun p =>
      { s with settles := s.settles.map fun c => if c.1 = id then (id,p) else c }

def daemonActs (s : State) : Act → List Daemon.Act
  | .worker a => [a]
  | .main (.round _) => if s.udevExit then [.cleanup,.kill] else []
  | .main .timeout => if ¬s.udevExit ∧ s.daemon.queue.events = [] then [.kill] else []
  | .main (.hang overdue) =>
    match s.point with
    | .hanging (id::_) =>
      if overdue ∧ (findWorker s.daemon id).any fun w => w.state = .running then [.expire id] else []
    | _ => []
  | .main (.config changed) => if s.reload || changed then [.kill] else []
  | .main .returned =>
    match s.point with
    | .worker f => if f.isWorker ∧ s.daemon.messages ≠ [] then [.returned] else []
    | _ => []
  | .main (.receive unusable) =>
    match s.point with
    | .netlink f => if f.isNetlink ∧ ¬unusable then s.netlink.head?.toList.map .insert else []
    | _ => []
  | .main (.start o) =>
    match s.point with
    | .starting _ (id::_) => [.start id o]
    | _ => []
  | .main (.reap pid) => pid.toList.map .reap
  | .main .ctrl =>
    match s.point with
    | .ctrl f => if f.isCtrl then s.conns.head?.elim [] fun c => ctrlActs c.2 else []
    | _ => []
  | _ => []
where
  ctrlActs : Option CtrlMsg → List Daemon.Act
    | some (.setLogLevel n) => if n ≥ 0 then [.kill] else []
    | some .setEnv => [.kill]
    | some (.setChildrenMax n) => if n ≥ 0 then [.setMax n] else []
    | _ => []

section Acts

variable {s : State} {f : Flags} {id : ℕ} {ids : List ℕ}

@[simp] theorem daemonActs_round (s : State) (opens : Bool) :
    daemonActs s (.main (.round opens)) = if s.udevExit then [.cleanup,.kill] else [] := rfl

@[simp] theorem daemonActs_timeout (s : State) :
    daemonActs s (.main .timeout) = if ¬s.udevExit ∧ s.daemon.queue.events = [] then [.kill] else [] := rfl

@[simp] theorem daemonActs_config (s : State) (changed : Bool) :
    daemonActs s (.main (.config changed)) = if s.reload || changed then [.kill] else [] := rfl

@[simp] theorem daemonActs_reap (s : State) (pid : Option ℕ) :
    daemonActs s (.main (.reap pid)) = pid.toList.map .reap := rfl

@[simp] theorem daemonActs_worker (s : State) (a : Daemon.Act) : daemonActs s (.worker a) = [a] := rfl

theorem daemonActs_hang (hp : s.point = .hanging (id::ids)) (overdue : Bool) :
    daemonActs s (.main (.hang overdue)) =
      if overdue ∧ (findWorker s.daemon id).any fun w => w.state = .running then [.expire id] else [] := by
  cases s
  cases hp
  rfl

theorem daemonActs_hang_nil (hp : s.point = .hanging []) (overdue : Bool) :
    daemonActs s (.main (.hang overdue)) = [] := by
  cases s
  cases hp
  rfl

theorem daemonActs_returned (hp : s.point = .worker f) :
    daemonActs s (.main .returned) = if f.isWorker ∧ s.daemon.messages ≠ [] then [.returned] else [] := by
  cases s
  cases hp
  rfl

theorem daemonActs_receive (hp : s.point = .netlink f) (unusable : Bool) :
    daemonActs s (.main (.receive unusable)) =
      if f.isNetlink ∧ ¬unusable then s.netlink.head?.toList.map .insert else [] := by
  cases s
  cases hp
  rfl

theorem daemonActs_start (hp : s.point = .starting f (id::ids)) (o : StartOracle) :
    daemonActs s (.main (.start o)) = [.start id o] := by
  cases s
  cases hp
  rfl

theorem daemonActs_start_nil (hp : s.point = .start f ∨ s.point = .starting f []) (o : StartOracle) :
    daemonActs s (.main (.start o)) = [] := by
  cases s
  rcases hp with hp | hp <;> cases hp <;> rfl

theorem daemonActs_ctrl (hp : s.point = .ctrl f) :
    daemonActs s (.main .ctrl) =
      if f.isCtrl then s.conns.head?.elim [] fun c => daemonActs.ctrlActs c.2 else [] := by
  cases s
  cases hp
  rfl

end Acts

theorem round_daemon (s : State) (opens : Bool) :
    run Daemon.step s.daemon (daemonActs s (.main (.round opens))) = some (round s opens).daemon := by
  by_cases h : s.udevExit <;> simp only [round,daemonActs_round,h,if_true,Bool.false_eq_true,if_false] <;>
    split_ifs <;> rfl

theorem timeout_daemon (s : State) :
    run Daemon.step s.daemon (daemonActs s (.main .timeout)) = some (timeout s).daemon := by
  by_cases h : s.udevExit <;> by_cases he : s.daemon.queue.events = [] <;>
    simp [timeout,h,he,run,Daemon.step]

theorem checkHanging_daemon {s : State} {id : ℕ} {ws : List ℕ} {overdue : Bool} {d : Daemon.State}
    (hp : s.point = .hanging (id::ws)) (h : checkHanging s.daemon id overdue = some d) :
    run Daemon.step s.daemon (daemonActs s (.main (.hang overdue))) = some d := by
  rw [daemonActs_hang hp]
  unfold checkHanging at h
  cases hw : findWorker s.daemon id with
  | none => simpa [hw] using h
  | some w =>
    simp only [hw] at h
    split_ifs at h with hr
    · simpa [hr,run] using h
    · have hno : ¬(overdue = true ∧ w.state = .running) := fun hc => hr hc.symm
      simpa [hno] using h

theorem afterSignal_daemon (s : State) (f : Flags) : (afterSignal s f).daemon = s.daemon := rfl

theorem handleSignal_daemon (s : State) (f : Flags) (sig : Signal) :
    (handleSignal s f sig).daemon = s.daemon := by cases sig <;> rfl

theorem readSignal_daemon {s t : State} {f : Flags} {sig : Option Signal} (h : readSignal s f sig = some t) :
    t.daemon = s.daemon := by
  cases sig with
  | none =>
    simp only [readSignal] at h
    split_ifs at h
    exact Option.some.inj h ▸ afterSignal_daemon s f
  | some g =>
    simp only [readSignal] at h
    split_ifs at h
    exact Option.some.inj h ▸ handleSignal_daemon _ f g

theorem handleCtrlMsg_daemon (s : State) (id : ℕ) (msg : Option CtrlMsg) :
    run Daemon.step s.daemon (daemonActs.ctrlActs msg) = some (handleCtrlMsg s id msg).daemon := by
  rcases msg with _ | m
  · rfl
  cases m with
  | setLogLevel n => by_cases h : n ≥ 0 <;> simp [daemonActs.ctrlActs,handleCtrlMsg,answer,h,run,Daemon.step]
  | setChildrenMax n => by_cases h : n ≥ 0 <;> simp [daemonActs.ctrlActs,handleCtrlMsg,answer,h,run,Daemon.step]
  | _ => rfl

theorem receiveDevice_daemon {s : State} {f : Flags} (hp : s.point = .netlink f) (unusable : Bool) (q : Point) :
    run Daemon.step s.daemon (daemonActs s (.main (.receive unusable))) =
      some (receiveDevice { s with point := q } f unusable).daemon := by
  simp only [daemonActs_receive hp,receiveDevice]
  by_cases hn : f.isNetlink <;> cases hl : s.netlink <;> cases unusable <;> simp [hn,run,Daemon.step]

theorem acceptCtrl_daemon {s : State} {f : Flags} (hp : s.point = .ctrl f) (q : Point) :
    run Daemon.step s.daemon (daemonActs s (.main .ctrl)) =
      some (acceptCtrl { s with point := q } f).daemon := by
  simp only [daemonActs_ctrl hp,acceptCtrl]
  by_cases hc : f.isCtrl
  · cases hl : s.conns with
    | nil => simp [hc]
    | cons c rest =>
      simp only [hc,if_true,List.head?_cons,Option.elim_some]
      exact handleCtrlMsg_daemon { s with conns := rest, point := q } c.1 c.2
  · simp [hc]

theorem mainStep_daemon {s t : State} {a : MainAct} (h : mainStep s a = some t) :
    run Daemon.step s.daemon (daemonActs s (.main a)) = some t.daemon := by
  unfold mainStep at h
  split at h
  case h_1 opens hp => exact Option.some.inj h ▸ round_daemon s opens
  case h_4 hp => exact Option.some.inj h ▸ timeout_daemon s
  case h_6 overdue id ws hp =>
    obtain ⟨d,hd,rfl⟩ := Option.map_eq_some_iff.mp h
    exact checkHanging_daemon hp hd
  case h_8 f hp =>
    rw [daemonActs_returned hp]
    split_ifs at h ⊢ with hm
    · obtain ⟨d,hd,rfl⟩ := Option.map_eq_some_iff.mp h
      simpa [run] using hd
    · cases h
      rfl
  case h_9 unusable f hp => exact Option.some.inj h ▸ receiveDevice_daemon hp unusable _
  case h_12 o f e es hp =>
    obtain ⟨d,hd,rfl⟩ := Option.map_eq_some_iff.mp h
    simp [daemonActs_start hp,run,Daemon.step,hd]
  case h_13 sig f hp => exact congrArg some (readSignal_daemon h).symm
  case h_15 pid f hp =>
    obtain ⟨d,hd,rfl⟩ := Option.map_eq_some_iff.mp h
    simp [run,hd]
  case h_17 f hp => exact Option.some.inj h ▸ acceptCtrl_daemon hp _
  case h_7 changed f hp =>
    rw [daemonActs_config]
    split_ifs at h ⊢ <;> exact Option.some.inj h ▸ rfl
  case h_2 f hp =>
    split_ifs at h
    exact Option.some.inj h ▸ rfl
  case h_10 o f hp =>
    rw [daemonActs_start_nil (Or.inl hp)]
    split_ifs at h <;> exact Option.some.inj h ▸ rfl
  case h_14 f hp =>
    split_ifs at h
    exact Option.some.inj h ▸ rfl
  case h_5 hp => exact Option.some.inj h ▸ by rw [daemonActs_hang_nil hp]; rfl
  case h_11 hp => exact Option.some.inj h ▸ by rw [daemonActs_start_nil (Or.inr hp)]; rfl
  case h_19 => cases h
  all_goals exact Option.some.inj h ▸ rfl

/-- Each action of the loop is a run of the main process and its workers. -/
theorem step_daemon {s t : State} {a : Act} (h : step s a = some t) :
    run Daemon.step s.daemon (daemonActs s a) = some t.daemon := by
  cases a with
  | main a => exact mainStep_daemon h
  | worker a =>
    simp only [step] at h
    split_ifs at h
    obtain ⟨d,hd,rfl⟩ := Option.map_eq_some_iff.mp h
    simp only [daemonActs_worker,run,hd,Option.bind_some]
    split_ifs <;> rfl
  | uevent dev =>
    simp only [step] at h
    split_ifs at h
    cases h
    rfl
  | settleStep id b =>
    obtain ⟨p,_,h⟩ := Option.bind_eq_some_iff.mp h
    obtain ⟨q,_,rfl⟩ := Option.map_eq_some_iff.mp h
    rfl
  | raise sig => cases h; rfl
  | connect msg => cases h; rfl
  | settle pings => cases h; rfl

theorem run_daemon {s t : State} {as : List Act} (h : run step s as = some t) :
    run Daemon.step s.daemon (trace step daemonActs s as) = some t.daemon :=
  run_trace State.daemon (fun _ _ _ => step_daemon) h

/-- Points at which neither a device message nor a client is taken in the rest of
the round, and no event is started. -/
def Quiet : Point → Prop
  | .config f | .worker f | .netlink f | .start f | .signal f | .reaping f | .inotify f | .ctrl f =>
    f.isNetlink = false ∧ f.isCtrl = false
  | .starting .. => False
  | .top | .wait | .hanging _ | .left _ | .exited _ => True

theorem not_insert_nil : ∀ b ∈ ([] : List Daemon.Act), ∀ dev, b ≠ .insert dev :=
  fun _ hb => absurd hb List.not_mem_nil

/-- A statement inside a round other than those that take a message or a client. -/
structure Inner (s : State) (a : MainAct) (t : State) : Prop where
  frame : t = { s with
    daemon := t.daemon, point := t.point, udevExit := t.udevExit, reload := t.reload, signals := t.signals }
  inside : s.point ≠ .top ∧ ∀ gaveUp, s.point ≠ .left gaveUp ∧ s.point ≠ .exited gaveUp
  exit : t.udevExit = s.udevExit ∨ t.udevExit = true ∧ t.point = .top
  left : t.point ≠ .left false ∧ ∀ gaveUp, t.point ≠ .exited gaveUp
  quiet : s.udevExit = true → s.closed = true → Quiet s.point → Quiet t.point
  acts : ∀ b ∈ daemonActs s (.main a), ∀ dev, b ≠ .insert dev

theorem Inner.afterSignal {s : State} {f : Flags} {a : MainAct} (hp : s.point = .signal f ∨ s.point = .reaping f)
    (ha : daemonActs s (.main a) = []) (signals : List Signal) (reload exit : Bool)
    (hx : s.udevExit = true → exit = true) :
    Inner s a (afterSignal { s with signals := signals, reload := reload, udevExit := exit } f) := by
  refine ⟨rfl,?_,?_,?_,fun hs _ _ => ?_,by rw [ha]; exact not_insert_nil⟩
  · rcases hp with hp | hp <;> simp [hp]
  · by_cases h : exit = true
    · exact Or.inr ⟨h,by simp [MainLoop.afterSignal,h]⟩
    · refine Or.inl ?_
      simp only [MainLoop.afterSignal]
      by_cases hs : s.udevExit = true
      · exact absurd (hx hs) h
      · simp_all
  · simp only [MainLoop.afterSignal]
    split_ifs <;> simp
  · simp [MainLoop.afterSignal,hx hs,Quiet]

theorem Inner.readSignal {s t : State} {f : Flags} {sig : Option Signal} (hp : s.point = .signal f)
    (h : readSignal s f sig = some t) : Inner s (.signal sig) t := by
  cases sig with
  | none =>
    simp only [MainLoop.readSignal] at h
    split_ifs at h
    cases h
    exact Inner.afterSignal (Or.inl hp) rfl s.signals s.reload s.udevExit id
  | some g =>
    simp only [MainLoop.readSignal] at h
    split_ifs at h
    cases h
    have hafter := Inner.afterSignal (a := .signal (some g)) (Or.inl hp) rfl (s.signals.erase g)
    cases g with
    | int => exact hafter s.reload true fun _ => rfl
    | term => exact hafter s.reload true fun _ => rfl
    | hup => exact hafter true s.udevExit id
    | other => exact hafter s.reload s.udevExit id
    | chld =>
      exact ⟨rfl,by simp [hp],Or.inl rfl,by simp [handleSignal],
        fun _ _ hq => by simpa [Quiet,hp,handleSignal] using hq,not_insert_nil⟩

theorem mainStep_cases {s t : State} {a : MainAct} (h : mainStep s a = some t) :
    (∃ opens, a = .round opens ∧ s.point = .top ∧ t = round s opens) ∨
    (∃ unusable f, a = .receive unusable ∧ s.point = .netlink f ∧
      t = receiveDevice { s with point := .start f } f unusable) ∨
    (∃ f, a = .ctrl ∧ s.point = .ctrl f ∧ t = acceptCtrl { s with point := .top } f) ∨
    (∃ gaveUp, a = .leave ∧ s.point = .left gaveUp ∧ t = { s with
      queueFile := false, answered := s.ctrlConn.toList ++ s.answered, ctrlConn := none
      point := .exited gaveUp }) ∨
    Inner s a t := by
  unfold mainStep at h
  split at h
  case h_1 opens hp => exact Or.inl ⟨opens,rfl,hp,(Option.some.inj h).symm⟩
  case h_9 unusable f hp => exact Or.inr (Or.inl ⟨unusable,f,rfl,hp,(Option.some.inj h).symm⟩)
  case h_17 f hp => exact Or.inr (Or.inr (Or.inl ⟨f,rfl,hp,(Option.some.inj h).symm⟩))
  case h_18 g hp => exact Or.inr (Or.inr (Or.inr (Or.inl ⟨g,rfl,hp,(Option.some.inj h).symm⟩)))
  all_goals refine Or.inr (Or.inr (Or.inr (Or.inr ?_)))
  case h_19 => cases h
  case h_2 f hp =>
    split_ifs at h with hc
    cases h
    refine ⟨rfl,by simp [hp],Or.inl rfl,by simp,fun _ hcl _ => ?_,not_insert_nil⟩
    simp only [hcl,true_and,not_or,Bool.not_eq_true] at hc
    exact ⟨hc.1,hc.2.2⟩
  case h_3 hp =>
    cases h
    exact ⟨rfl,by simp [hp],Or.inl rfl,by simp,fun _ _ _ => trivial,not_insert_nil⟩
  case h_4 hp =>
    cases h
    refine ⟨?_,by simp [hp],Or.inl ?_,?_,fun hs _ _ => ?_,?_⟩
    all_goals by_cases hx : s.udevExit = true <;> simp [timeout,hx,Quiet]
  case h_5 overdue hp =>
    cases h
    exact ⟨rfl,by simp [hp],Or.inl rfl,by simp,fun _ _ _ => by simp [Quiet],by simp [daemonActs_hang_nil hp]⟩
  case h_6 overdue id ws hp =>
    obtain ⟨d,_,rfl⟩ := Option.map_eq_some_iff.mp h
    refine ⟨rfl,by simp [hp],Or.inl rfl,by simp,fun _ _ _ => trivial,?_⟩
    rw [daemonActs_hang hp]
    split_ifs <;> simp
  case h_7 changed f hp =>
    split_ifs at h with hr
    all_goals cases h
    all_goals exact ⟨rfl,by simp [hp],Or.inl rfl,by simp,fun _ _ hq => by simpa [Quiet,hp] using hq,
      by simp [hr]⟩
  case h_8 f hp =>
    split_ifs at h with hm
    · obtain ⟨d,_,rfl⟩ := Option.map_eq_some_iff.mp h
      exact ⟨rfl,by simp [hp],Or.inl rfl,by simp [hp],fun _ _ hq => hq,by simp [daemonActs_returned hp,hm]⟩
    · cases h
      exact ⟨rfl,by simp [hp],Or.inl rfl,by simp,fun _ _ hq => by simpa [Quiet,hp] using hq,
        by simp [daemonActs_returned hp,hm]⟩
  case h_10 o f hp =>
    split_ifs at h with hq
    all_goals cases h
    · refine ⟨rfl,by simp [hp],Or.inl rfl,by simp,fun hs _ _ => absurd hs hq.2.1,
        by simp [daemonActs_start_nil (Or.inl hp)]⟩
    · exact ⟨rfl,by simp [hp],Or.inl rfl,by simp,fun _ _ hq => by simpa [Quiet,hp] using hq,
        by simp [daemonActs_start_nil (Or.inl hp)]⟩
  case h_11 o f hp =>
    cases h
    exact ⟨rfl,by simp [hp],Or.inl rfl,by simp,fun _ _ hq => by simp [Quiet,hp] at hq,
      by simp [daemonActs_start_nil (Or.inr hp)]⟩
  case h_12 o f e es hp =>
    obtain ⟨d,_,rfl⟩ := Option.map_eq_some_iff.mp h
    exact ⟨rfl,by simp [hp],Or.inl rfl,by simp,fun _ _ hq => by simp [Quiet,hp] at hq,
      by simp [daemonActs_start hp]⟩
  case h_13 sig f hp => exact Inner.readSignal hp h
  case h_14 f hp =>
    split_ifs at h
    cases h
    exact Inner.afterSignal (Or.inr hp) rfl s.signals s.reload s.udevExit id
  case h_15 pid f hp =>
    obtain ⟨d,_,rfl⟩ := Option.map_eq_some_iff.mp h
    exact ⟨rfl,by simp [hp],Or.inl rfl,by simp [hp],fun _ _ hq => hq,by simp⟩
  case h_16 f hp =>
    cases h
    exact ⟨rfl,by simp [hp],Or.inl rfl,by simp,fun _ _ hq => by simpa [Quiet,hp] using hq,
      not_insert_nil⟩

theorem outer_frame {s t : State} {a : Act} (ha : ∀ m, a ≠ .main m) (h : step s a = some t) :
    (t = { s with
      daemon := t.daemon, netlink := t.netlink, kernelSeqnum := t.kernelSeqnum, signals := t.signals
      conns := t.conns, settles := t.settles, nextClient := t.nextClient }) ∧
      ∀ b ∈ daemonActs s a, isWorkerAct b = true := by
  cases a with
  | main m => exact absurd rfl (ha m)
  | worker a =>
    simp only [step] at h
    split_ifs at h with hw
    obtain ⟨d,_,rfl⟩ := Option.map_eq_some_iff.mp h
    refine ⟨?_,fun b hb => List.mem_singleton.mp hb ▸ hw⟩
    split_ifs <;> rfl
  | uevent dev =>
    simp only [step] at h
    split_ifs at h
    cases h
    exact ⟨rfl,fun _ hb => absurd hb List.not_mem_nil⟩
  | settleStep id b =>
    obtain ⟨p,_,h⟩ := Option.bind_eq_some_iff.mp h
    obtain ⟨q,_,rfl⟩ := Option.map_eq_some_iff.mp h
    exact ⟨rfl,fun _ hb => absurd hb List.not_mem_nil⟩
  | raise sig => cases h; exact ⟨rfl,fun _ hb => absurd hb List.not_mem_nil⟩
  | connect msg => cases h; exact ⟨rfl,fun _ hb => absurd hb List.not_mem_nil⟩
  | settle pings => cases h; exact ⟨rfl,fun _ hb => absurd hb List.not_mem_nil⟩

theorem main_or_outer (a : Act) : (∃ m, a = .main m) ∨ ∀ m, a ≠ .main m := by
  cases a with
  | main m => exact Or.inl ⟨m,rfl⟩
  | _ => exact Or.inr fun m h => by cases h

theorem round_netlink (s : State) (opens : Bool) :
    (round s opens).netlink = s.netlink ∧ (round s opens).kernelSeqnum = s.kernelSeqnum := by
  simp only [round]
  split_ifs <;> exact ⟨rfl,rfl⟩

theorem acceptCtrl_cases (s : State) (f : Flags) :
    acceptCtrl s f = s ∨ ∃ id msg rest, f.isCtrl = true ∧ s.conns = (id,msg)::rest ∧
      acceptCtrl s f = handleCtrlMsg { s with conns := rest } id msg := by
  unfold acceptCtrl
  split_ifs with hf
  · split
    · exact Or.inl rfl
    · rename_i id msg rest hc
      exact Or.inr ⟨id,msg,rest,hf,hc,rfl⟩
  · exact Or.inl rfl

theorem handleCtrlMsg_frame (s : State) (id : ℕ) (msg : Option CtrlMsg) :
    ∃ d exit stop reload conn, (exit = s.udevExit ∨ exit = true) ∧
      (handleCtrlMsg s id msg = { s with
        daemon := d, udevExit := exit, stopExecQueue := stop, reload := reload, ctrlConn := conn } ∨
      handleCtrlMsg s id msg = { s with
        daemon := d, udevExit := exit, stopExecQueue := stop, reload := reload, ctrlConn := conn
        answered := id::s.answered }) := by
  rcases msg with _ | m
  · exact ⟨_,_,_,_,_,Or.inl rfl,Or.inr rfl⟩
  cases m with
  | exit => exact ⟨_,_,_,_,_,Or.inr rfl,Or.inl rfl⟩
  | setLogLevel n =>
    simp only [handleCtrlMsg,answer]
    split_ifs <;> exact ⟨_,_,_,_,_,Or.inl rfl,Or.inr rfl⟩
  | setChildrenMax n =>
    simp only [handleCtrlMsg,answer]
    split_ifs <;> exact ⟨_,_,_,_,_,Or.inl rfl,Or.inr rfl⟩
  | _ => exact ⟨_,_,_,_,_,Or.inl rfl,Or.inr rfl⟩

theorem ctrlActs_no_insert (msg : Option CtrlMsg) (dev : Device) : .insert dev ∉ daemonActs.ctrlActs msg := by
  rcases msg with _ | m
  · simp [daemonActs.ctrlActs]
  · cases m <;> simp only [daemonActs.ctrlActs] <;> (try split_ifs) <;> simp

theorem acceptCtrl_no_insert (s : State) (dev : Device) : .insert dev ∉ daemonActs s (.main .ctrl) := by
  cases hp : s.point with
  | ctrl f =>
    rw [daemonActs_ctrl hp]
    split_ifs
    · cases s.conns with
      | nil => exact List.not_mem_nil
      | cons c rest => exact ctrlActs_no_insert c.2 dev
    · exact List.not_mem_nil
  | _ =>
    cases s
    cases hp
    exact List.not_mem_nil

/-- The only device that the loop takes in is the oldest one of the netlink socket. -/
theorem mainStep_netlink {s t : State} {a : MainAct} (h : mainStep s a = some t) :
    t.kernelSeqnum = s.kernelSeqnum ∧
      (t.netlink = s.netlink ∧ (∀ b ∈ daemonActs s (.main a), ∀ dev, b ≠ .insert dev) ∨
      ∃ dev, s.netlink = dev::t.netlink ∧
        (daemonActs s (.main a) = [] ∨ daemonActs s (.main a) = [.insert dev])) := by
  rcases mainStep_cases h with ⟨opens,rfl,hp,rfl⟩ | ⟨unusable,f,rfl,hp,rfl⟩ | ⟨f,rfl,hp,rfl⟩ |
    ⟨g,rfl,hp,rfl⟩ | hin
  · obtain ⟨hn,hk⟩ := round_netlink s opens
    refine ⟨hk,Or.inl ⟨hn,?_⟩⟩
    rw [daemonActs_round]
    split_ifs <;> simp
  · simp only [receiveDevice,daemonActs_receive hp]
    by_cases hf : f.isNetlink <;> cases hl : s.netlink <;> cases unusable <;> simp [hf]
  · have hno : ∀ b ∈ daemonActs s (.main .ctrl), ∀ dev, b ≠ .insert dev := fun b hb dev he =>
      acceptCtrl_no_insert s dev (he ▸ hb)
    rcases acceptCtrl_cases { s with point := .top } f with heq | ⟨id,msg,rest,_,_,heq⟩ <;> rw [heq]
    · exact ⟨rfl,Or.inl ⟨rfl,hno⟩⟩
    · obtain ⟨d,_,_,_,_,_,heq | heq⟩ := handleCtrlMsg_frame { s with conns := rest, point := .top } id msg <;>
        rw [heq] <;> exact ⟨rfl,Or.inl ⟨rfl,hno⟩⟩
  · exact ⟨rfl,Or.inl ⟨rfl,not_insert_nil⟩⟩
  · rw [hin.frame]
    exact ⟨rfl,Or.inl ⟨rfl,hin.acts⟩⟩

/-- The device messages of the kernel are unread in the order of their SEQNUMs, and
all of them are later than the events of the queue. -/
structure InOrder (s : State) : Prop where
  sorted : s.netlink.Pairwise (·.seqnum < ·.seqnum)
  later : ∀ dev ∈ s.netlink, s.daemon.queue.lastSeqnum < dev.seqnum ∧ dev.seqnum ≤ s.kernelSeqnum
  last : s.daemon.queue.lastSeqnum ≤ s.kernelSeqnum

theorem step_lastSeqnum {d d' : Daemon.State} {a : Daemon.Act} (ha : ∀ dev, a ≠ .insert dev)
    (h : Daemon.step d a = some d') : d'.queue.lastSeqnum = d.queue.lastSeqnum := by
  rcases Serialization.step_queue h with ⟨dev,rfl,_⟩ | ⟨e,_,hq⟩ | ⟨p,hq⟩
  · exact absurd rfl (ha dev)
  · rcases hq with hq | hq | ⟨_,hq⟩ <;> rw [hq] <;> rfl
  · rw [hq]

theorem run_lastSeqnum {d d' : Daemon.State} {bs : List Daemon.Act} (hb : ∀ b ∈ bs, ∀ dev, b ≠ .insert dev)
    (h : run Daemon.step d bs = some d') : d'.queue.lastSeqnum = d.queue.lastSeqnum := by
  induction bs generalizing d with
  | nil => rw [Option.some.inj h]
  | cons b bs ih =>
    obtain ⟨u,hu,hrun⟩ := run_cons_some.mp h
    rw [ih (fun c hc => hb c (List.mem_cons_of_mem b hc)) hrun]
    exact step_lastSeqnum (hb b List.mem_cons_self) hu

theorem along_no_insert {bs : List Daemon.Act} (hb : ∀ b ∈ bs, ∀ dev, b ≠ .insert dev) (d : Daemon.State) :
    Along Daemon.step Serialization.SeqnumsIncrease d bs := by
  refine along_of_forall _ (fun b hmem d => ?_) d
  cases b with
  | insert dev => exact absurd rfl (hb _ hmem dev)
  | _ => trivial

theorem InOrder.quiet {s t : State} (hs : InOrder s) {bs : List Daemon.Act}
    (hb : ∀ b ∈ bs, ∀ dev, b ≠ .insert dev) (hrun : run Daemon.step s.daemon bs = some t.daemon)
    (hn : t.netlink = s.netlink) (hk : t.kernelSeqnum = s.kernelSeqnum) : InOrder t := by
  have hlast := run_lastSeqnum hb hrun
  exact ⟨hn ▸ hs.sorted,by rw [hn,hk,hlast]; exact hs.later,by rw [hk,hlast]; exact hs.last⟩

theorem InOrder.receive {s t : State} (hs : InOrder s) {dev : Device} (hn : s.netlink = dev::t.netlink)
    (hk : t.kernelSeqnum = s.kernelSeqnum)
    (hlast : t.daemon.queue.lastSeqnum = s.daemon.queue.lastSeqnum ∨ t.daemon.queue.lastSeqnum = dev.seqnum) :
    InOrder t := by
  obtain ⟨hlt,hsort⟩ := List.pairwise_cons.mp (hn ▸ hs.sorted)
  have hlater := fun x hx => hs.later x (hn ▸ hx)
  have hdev := hlater dev List.mem_cons_self
  refine ⟨hsort,fun x hx => ?_,?_⟩
  · have hx' := hlater x (List.mem_cons_of_mem dev hx)
    have hdx := hlt x hx
    rcases hlast with hl | hl <;> rw [hl,hk] <;> exact ⟨by omega,hx'.2⟩
  · have := hs.last
    rcases hlast with hl | hl <;> rw [hl,hk] <;> omega

theorem step_inOrder {s t : State} {a : Act} (hs : InOrder s) (h : step s a = some t) :
    InOrder t ∧ Along Daemon.step Serialization.SeqnumsIncrease s.daemon (daemonActs s a) := by
  have hrun := step_daemon h
  have hquiet : (∀ b ∈ daemonActs s a, ∀ dev, b ≠ .insert dev) → t.netlink = s.netlink →
      t.kernelSeqnum = s.kernelSeqnum →
      InOrder t ∧ Along Daemon.step Serialization.SeqnumsIncrease s.daemon (daemonActs s a) :=
    fun hb hn hk => ⟨hs.quiet hb hrun hn hk,along_no_insert hb s.daemon⟩
  cases a with
  | main a =>
    obtain ⟨hk,⟨hn,hb⟩ | ⟨dev,hn,hb⟩⟩ := mainStep_netlink h
    · exact hquiet hb hn hk
    · have hlt := (hs.later dev (hn ▸ List.mem_cons_self)).1
      rcases hb with hb | hb <;> rw [hb] at hrun ⊢
      · exact ⟨hs.receive hn hk (Or.inl (by rw [← Option.some.inj hrun])),trivial⟩
      · refine ⟨hs.receive hn hk (Or.inr (by rw [← Option.some.inj hrun]; rfl)),hlt,trivial⟩
  | worker a =>
    simp only [step] at h
    split_ifs at h with ha
    obtain ⟨d,hd,rfl⟩ := Option.map_eq_some_iff.mp h
    refine hquiet (fun b hb dev he => ?_) ?_ ?_
    · rw [List.mem_singleton.mp hb] at he
      simp [he,isWorkerAct] at ha
    all_goals split_ifs <;> rfl
  | uevent dev =>
    simp only [step] at h
    split_ifs at h with hlt
    cases h
    have hlast := hs.last
    refine ⟨⟨List.pairwise_append.mpr ⟨hs.sorted,by simp,fun x hx y hy => ?_⟩,fun x hx => ?_,hlast.trans hlt.le⟩,
      trivial⟩
    · rw [List.mem_singleton.mp hy]
      exact (hs.later x hx).2.trans_lt hlt
    · rcases List.mem_append.mp hx with hx | hx
      · exact ⟨(hs.later x hx).1,(hs.later x hx).2.trans hlt.le⟩
      · rw [List.mem_singleton.mp hx]
        exact ⟨hlast.trans_lt hlt,le_rfl⟩
  | settleStep id b =>
    obtain ⟨p,_,h⟩ := Option.bind_eq_some_iff.mp h
    obtain ⟨q,_,rfl⟩ := Option.map_eq_some_iff.mp h
    exact hquiet not_insert_nil rfl rfl
  | raise sig => cases h; exact hquiet not_insert_nil rfl rfl
  | connect msg => cases h; exact hquiet not_insert_nil rfl rfl
  | settle pings => cases h; exact hquiet not_insert_nil rfl rfl

/-- Every run of the loop is a run of the main process and its workers in which the SEQNUMs
increase, so the conflicts of the queue stay in order. -/
theorem main_loop_serial {s : State} {as : List Act} (h : run step {} as = some s) :
    (∃ bs, run Daemon.step {} bs = some s.daemon ∧ Along Daemon.step Serialization.SeqnumsIncrease {} bs) ∧
    ∀ e ∈ s.daemon.queue.events, ∀ l ∈ s.daemon.queue.events, e.state = .running →
      l.seqnum < e.seqnum → ¬Conflicts e l := by
  have hbs := run_daemon h
  have hseq : Along Daemon.step Serialization.SeqnumsIncrease {} (trace step daemonActs {} as) :=
    along_trace State.daemon InOrder (fun _ _ _ => step_daemon)
      (fun _ _ _ hs _ h => step_inOrder hs h) ⟨List.Pairwise.nil,by simp,le_rfl⟩ (along_true _ as) h
  refine ⟨⟨_,hbs,hseq⟩,fun e he l hl hr hlt => ?_⟩
  have hinv := run_invariant (fun d => EventQueue.Inv d.queue ∧ Addresses d.queue ∧ Serialization.Serial d.queue)
    (fun _ _ _ hs ha h => Serialization.step_serial hs ha h)
    ⟨inv_empty,Addresses.empty,by simp [Serialization.Serial]⟩ hseq hbs
  rw [← conflictTest_isSome,hinv.2.2 e he hr l hl hlt]
  simp

def deviceRound (pid : ℕ) (es : List ℕ) : List Act :=
  [.main (.round true), .main (.wake { isNetlink := true }), .main (.config false), .main .returned,
   .main (.receive false), .main (.start {})] ++
  es.map (fun _ => .main (.start { fork := some pid })) ++
  [.main (.start {}), .main (.signal none), .main .inotify, .main .ctrl]

theorem main_loop_serial_disks :
    ∃ s, run step {} ([.uevent { seqnum := 1, devpath := str "/block/sda" },
        .uevent { seqnum := 2, devpath := str "/block/sdb" }] ++
        deviceRound 100 [0] ++ deviceRound 101 [0,1]) = some s ∧
      s.daemon.queue.events.map (·.state) = [.running,.running] ∧
      ∀ e ∈ s.daemon.queue.events, ∀ l ∈ s.daemon.queue.events, e.state = .running →
        l.seqnum < e.seqnum → ¬Conflicts e l :=
  ⟨_,rfl,rfl,(main_loop_serial (show run step {} ([.uevent { seqnum := 1, devpath := str "/block/sda" },
    .uevent { seqnum := 2, devpath := str "/block/sdb" }] ++
    deviceRound 100 [0] ++ deviceRound 101 [0,1]) = some _ from rfl)).2⟩

end MainLoop
end Udev
