import Udev.Bytes
import Udev.Decimal
import Udev.UniqueList
import Udev.Properties
import Udev.MainLoop

/-! The messages of the control socket as bytes: how a client writes its request, how the main
process reads it, and what the requests leave in its settings. -/
namespace Udev
namespace CtrlWire

open CString Bytes Text Decimal MainLoop

def ctrlMagic : ℕ := 0xdead1dea

def field (n : ℕ) (bytes : List UInt8) : List UInt8 := bytes ++ List.replicate (n-bytes.length) 0

/-- `struct udev_ctrl_msg_wire`; the number and the text share the bytes of the union. -/
structure Wire where
  version : List UInt8
  magic : ℕ
  type : ℕ
  union : List UInt8
  deriving DecidableEq, Repr

def Wire.bytes (w : Wire) : List UInt8 := w.version ++ le 4 w.magic ++ le 4 w.type ++ w.union

def Wire.ofBytes (b : List UInt8) : Wire where
  version := b.take 16
  magic := ofLe ((b.drop 16).take 4)
  type := ofLe ((b.drop 20).take 4)
  union := b.drop 24

def Wire.intval (w : Wire) : ℤ := toInt32 (ofLe (w.union.take 4))

def Wire.buf (w : Wire) : CString := w.union.takeWhile (· ≠ 0)

def ctrlSend (version : CString) (type : ℕ) (intval : ℤ) (buf : Option CString) : Wire where
  version := field 16 (str "udev-" ++ version)
  magic := ctrlMagic
  type := type
  union := field 256 (buf.elim (le 4 (intval%2^32).toNat) (strscpy 256))

/-- The `udev_ctrl_send_` calls. -/
inductive Request
  | setLogLevel (priority : ℤ) | stopExecQueue | startExecQueue | reload | setEnv (key : CString)
  | setChildrenMax (count : ℤ) | ping | exit
  deriving DecidableEq, Repr

def Request.send (version : CString) : Request → Wire
  | .setLogLevel priority => ctrlSend version 1 priority none
  | .stopExecQueue => ctrlSend version 2 0 none
  | .startExecQueue => ctrlSend version 3 0 none
  | .reload => ctrlSend version 4 0 none
  | .setEnv key => ctrlSend version 5 0 (some key)
  | .setChildrenMax count => ctrlSend version 6 count none
  | .ping => ctrlSend version 7 0 none
  | .exit => ctrlSend version 8 0 none

/-- `udev_ctrl_receive_msg`, for the bytes of a message and the user of its sender. -/
def receiveMsg (msg : List UInt8) (uid : Option ℕ) : Option Wire :=
  let w := Wire.ofBytes (field 280 (msg.take 280))
  if uid ≠ some 0 then none
  else if w.magic ≠ ctrlMagic then none
  else some w

def getSetLogLevel (w : Wire) : ℤ := if w.type = 1 then w.intval else -1

def getStopExecQueue (w : Wire) : ℤ := if w.type = 2 then 1 else -1

def getStartExecQueue (w : Wire) : ℤ := if w.type = 3 then 1 else -1

def getReload (w : Wire) : ℤ := if w.type = 4 then 1 else -1

def getSetEnv (w : Wire) : Option CString := if w.type = 5 then some w.buf else none

def getSetChildrenMax (w : Wire) : ℤ := if w.type = 6 then w.intval else -1

def getExit (w : Wire) : ℤ := if w.type = 8 then 1 else -1

/-- What the main process has that its workers inherit: the log priority, the global properties,
the rules and the data of the builtins, when they are initialized. -/
structure Settings where
  logPriority : ℤ := 6
  properties : UdevList := []
  rules : ℕ := 0
  builtins : Option ℕ := none
  deriving DecidableEq, Repr

/-- `udev_add_property`. -/
def addProperty (st : Settings) (key : CString) : Option CString → Settings
  | none => { st with properties := st.properties.delete key }
  | some value => { st with properties := st.properties.add key value }

/-- `udev_set_log_priority`. -/
def setLogPriority (st : Settings) (priority : ℤ) : Settings :=
  addProperty { st with logPriority := priority } (str "UDEV_LOG") (some (printNat (priority%2^32).toNat))

/-- The key of a `KEY=value` text with its value, where an empty value unsets the key. -/
def assignment (text : CString) : Option (CString × Option CString) :=
  (strchr text (chr '=')).map fun rest =>
    (text.takeWhile (· ≠ chr '='),if rest.drop 1 = [] then none else some (rest.drop 1))

/-- What `handle_ctrl_msg` does to the settings. -/
def handleSettings (st : Settings) (w : Wire) : Settings :=
  let st := if getSetLogLevel w ≥ 0 then setLogPriority st (getSetLogLevel w) else st
  ((getSetEnv w).bind assignment).elim st fun kv => addProperty st kv.1 kv.2

/-- `handle_ctrl_msg` on the bytes, as far as the main loop goes. -/
def handleMsg (s : State) (id : ℕ) (w : Wire) : State :=
  let kill (s : State) : State := { s with daemon := Daemon.workerKill s.daemon }
  let s := if getSetLogLevel w ≥ 0 then kill s else s
  let s := if getStopExecQueue w > 0 then { s with stopExecQueue := true } else s
  let s := if getStartExecQueue w > 0 then { s with stopExecQueue := false } else s
  let s := if getReload w > 0 then { s with reload := true } else s
  let s := if (getSetEnv w).isSome then kill s else s
  let s :=
    if getSetChildrenMax w ≥ 0 then { s with daemon := { s.daemon with childrenMax := getSetChildrenMax w } }
    else s
  if getExit w > 0 then { s with udevExit := true, ctrlConn := some id } else answer s id

def ctrlMsg (w : Wire) : CtrlMsg :=
  if w.type = 1 then .setLogLevel w.intval
  else if w.type = 2 then .stopExecQueue
  else if w.type = 3 then .startExecQueue
  else if w.type = 4 then .reload
  else if w.type = 5 then .setEnv
  else if w.type = 6 then .setChildrenMax w.intval
  else if w.type = 7 then .ping
  else if w.type = 8 then .exit
  else .unknown

/-- The getters find one request in a message, which is the one of its type. -/
theorem handleMsg_eq (s : State) (id : ℕ) (w : Wire) : handleMsg s id w = handleCtrlMsg s id (some (ctrlMsg w)) := by
  simp only [handleMsg,ctrlMsg,getSetLogLevel,getStopExecQueue,getStartExecQueue,getReload,getSetEnv,
    getSetChildrenMax,getExit]
  by_cases h₁ : w.type = 1
  · by_cases hn : 0 ≤ w.intval <;> simp [h₁,hn,handleCtrlMsg]
  by_cases h₂ : w.type = 2
  · simp [h₂,handleCtrlMsg]
  by_cases h₃ : w.type = 3
  · simp [h₃,handleCtrlMsg]
  by_cases h₄ : w.type = 4
  · simp [h₄,handleCtrlMsg]
  by_cases h₅ : w.type = 5
  · simp [h₅,handleCtrlMsg]
  by_cases h₆ : w.type = 6
  · by_cases hn : 0 ≤ w.intval <;> simp [h₆,hn,handleCtrlMsg]
  by_cases h₇ : w.type = 7
  · simp [h₇,handleCtrlMsg]
  by_cases h₈ : w.type = 8 <;> simp [h₁,h₂,h₃,h₄,h₅,h₆,h₇,h₈,handleCtrlMsg]

section Bytes

variable {n : ℕ} {bytes : List UInt8}

theorem length_field (h : bytes.length ≤ n) : (field n bytes).length = n := by
  simp only [field,List.length_append,List.length_replicate]
  omega

theorem field_full (h : bytes.length = n) : field n bytes = bytes := by simp [field,h]

theorem ofBytes_bytes {w : Wire} (hversion : w.version.length = 16) (hmagic : w.magic < 2^32) (htype : w.type < 2^32) :
    Wire.ofBytes w.bytes = w := by
  obtain ⟨version,magic,type,union⟩ := w
  have h₁ : (version ++ (le 4 magic ++ (le 4 type ++ union))).drop 16 = le 4 magic ++ (le 4 type ++ union) :=
    List.drop_left' hversion
  have h₂ : (le 4 magic ++ (le 4 type ++ union)).drop 4 = le 4 type ++ union := List.drop_left' (length_le 4 magic)
  have h₃ : (le 4 type ++ union).drop 4 = union := List.drop_left' (length_le 4 type)
  have hm : ofLe (le 4 magic) = magic := ofLe_le (by simpa using hmagic)
  have ht : ofLe (le 4 type) = type := ofLe_le (by simpa using htype)
  simp only [Wire.ofBytes,Wire.bytes,List.append_assoc,Wire.mk.injEq]
  refine ⟨List.take_left' hversion,?_,?_,?_⟩
  · rw [h₁,List.take_left' (length_le 4 magic),hm]
  · rw [← List.drop_drop (i := 4) (j := 16),h₁,h₂,List.take_left' (length_le 4 type),ht]
  · rw [← List.drop_drop (i := 8) (j := 16),h₁,← List.drop_drop (i := 4) (j := 4),h₂,h₃]

end Bytes

section Send

variable {version : CString} {type : ℕ} {intval : ℤ} {buf : Option CString}

theorem length_union : (ctrlSend version type intval buf).union.length = 256 := by
  refine length_field ?_
  cases buf with
  | none => simp
  | some key =>
    rw [Option.elim_some,strscpy_eq (by decide),List.length_take]
    omega

theorem receiveMsg_ctrlSend (hv : version.length ≤ 10) (htype : type < 2^32) :
    receiveMsg (ctrlSend version type intval buf).bytes (some 0) = some (ctrlSend version type intval buf) := by
  have hversion : (ctrlSend version type intval buf).version.length = 16 := by
    refine length_field ?_
    rw [List.length_append,show (str "udev-").length = 5 from rfl]
    omega
  have hlen : (ctrlSend version type intval buf).bytes.length = 280 := by
    simp [Wire.bytes,hversion,length_union]
  have hread : Wire.ofBytes (field 280 ((ctrlSend version type intval buf).bytes.take 280)) =
      ctrlSend version type intval buf := by
    rw [List.take_of_length_le hlen.le,field_full hlen]
    exact ofBytes_bytes hversion (show ctrlMagic < 2^32 by decide) htype
  simp only [receiveMsg,hread,ne_eq,not_true_eq_false,if_false]
  exact if_neg fun hne => hne rfl

theorem intval_ctrlSend (h : -2^31 ≤ intval) (h' : intval < 2^31) : (ctrlSend version type intval none).intval = intval := by
  have htake : (ctrlSend version type intval none).union.take 4 = le 4 (intval%2^32).toNat :=
    List.take_left' (length_le _ _)
  have hlt : (intval%2^32).toNat < 256^4 := by omega
  rw [Wire.intval,htake,ofLe_le hlt,Int.toNat_of_nonneg (by omega)]
  unfold toInt32
  rw [show (2^32 : ℤ) = ((2^32 : ℕ) : ℤ) from rfl,Int.emod_bmod]
  exact toInt32_eq h h'

theorem buf_ctrlSend {key : CString} (h0 : 0 ∉ key) : (ctrlSend version type intval (some key)).buf = key.take 255 := by
  have h0' : ∀ c ∈ key.take 255, c ≠ 0 := fun c hc hz => h0 (hz ▸ List.mem_of_mem_take hc)
  have hrest : List.replicate (256-(key.take 255).length) (0 : UInt8) =
      0::List.replicate (255-(key.take 255).length) 0 := by
    rw [← List.replicate_succ]
    congr 1
    have := List.length_take_le 255 key
    omega
  show (field 256 (strscpy 256 key)).takeWhile (· ≠ 0) = _
  rw [strscpy_eq (by decide),field,hrest,List.takeWhile_append_of_pos (by simpa using h0')]
  simp

end Send

/-- A number fits in an `int`, a text ends at its first zero. -/
def Request.Ok : Request → Prop
  | .setLogLevel n | .setChildrenMax n => -2^31 ≤ n ∧ n < 2^31
  | .setEnv key => 0 ∉ key
  | _ => True

instance decidableOk : (r : Request) → Decidable r.Ok
  | .setLogLevel n | .setChildrenMax n => inferInstanceAs (Decidable (-2^31 ≤ n ∧ n < 2^31))
  | .setEnv key => inferInstanceAs (Decidable (0 ∉ key))
  | .stopExecQueue | .startExecQueue | .reload | .ping | .exit => isTrue trivial

def Request.msg : Request → CtrlMsg
  | .setLogLevel n => .setLogLevel n
  | .stopExecQueue => .stopExecQueue
  | .startExecQueue => .startExecQueue
  | .reload => .reload
  | .setEnv _ => .setEnv
  | .setChildrenMax n => .setChildrenMax n
  | .ping => .ping
  | .exit => .exit

def Request.priority : Request → Option ℤ
  | .setLogLevel n => if n ≥ 0 then some n else none
  | _ => none

/-- The property that a request sets or unsets; a text is cut at 255 bytes. -/
def Request.assigns : Request → Option (CString × Option CString)
  | .setLogLevel n => if n ≥ 0 then some (str "UDEV_LOG",some (printNat n.toNat)) else none
  | .setEnv key => assignment (key.take 255)
  | _ => none

theorem request_handled {version : CString} (hv : version.length ≤ 10) {r : Request} (hr : r.Ok) :
    receiveMsg (r.send version).bytes (some 0) = some (r.send version) ∧ ctrlMsg (r.send version) = r.msg ∧
      ∀ st, handleSettings st (r.send version) = r.assigns.elim st fun kv =>
        addProperty { st with logPriority := r.priority.getD st.logPriority } kv.1 kv.2 := by
  refine ⟨by cases r <;> exact receiveMsg_ctrlSend hv (by omega),?_,fun st => ?_⟩
  · cases r with
    | setLogLevel n => simpa [ctrlMsg,Request.msg,Request.send,ctrlSend] using intval_ctrlSend hr.1 hr.2
    | setChildrenMax n => simpa [ctrlMsg,Request.msg,Request.send,ctrlSend] using intval_ctrlSend hr.1 hr.2
    | _ => rfl
  · cases r with
    | setLogLevel n =>
      obtain ⟨h,h'⟩ := hr
      have hlevel : getSetLogLevel ((Request.setLogLevel n).send version) = n := by
        simpa [getSetLogLevel,Request.send,ctrlSend] using intval_ctrlSend h h'
      have henv : getSetEnv ((Request.setLogLevel n).send version) = none := rfl
      simp only [handleSettings,hlevel,henv,Option.bind_none,Option.elim_none,Request.assigns,Request.priority]
      by_cases hn : n ≥ 0
      · have hmod : n%2^32 = n := by omega
        rw [if_pos hn,if_pos hn,if_pos hn,setLogPriority,hmod]
        rfl
      · simp [hn]
    | setEnv key =>
      have henv : getSetEnv ((Request.setEnv key).send version) = some (key.take 255) :=
        congrArg some (buf_ctrlSend hr)
      have hlevel : getSetLogLevel ((Request.setEnv key).send version) = -1 := rfl
      simp [handleSettings,hlevel,henv,Request.assigns,Request.priority]
    | _ => rfl

/-- A message with the user of its sender: the request of a root process, or anything else that
another user sent. -/
inductive Arrival
  | request (r : Request) | foreign (msg : List UInt8) (uid : ℕ)
  deriving DecidableEq, Repr

def Arrival.received (version : CString) : Arrival → Option Wire
  | .request r => receiveMsg (r.send version).bytes (some 0)
  | .foreign msg uid => receiveMsg msg (some uid)

/-- One connection of a client: the message is received and handled, and the client is answered. -/
def serve (version : CString) (p : State × Settings) (a : ℕ × Arrival) : State × Settings :=
  (a.2.received version).elim (handleCtrlMsg p.1 a.1 none,p.2) fun w =>
    (handleMsg p.1 a.1 w,handleSettings p.2 w)

def Arrival.Ok : Arrival → Prop
  | .request r => r.Ok
  | .foreign _ uid => uid ≠ 0

instance decidableArrivalOk : (a : Arrival) → Decidable a.Ok
  | .request r => decidableOk r
  | .foreign _ uid => inferInstanceAs (Decidable (uid ≠ 0))

def Arrival.request? : Arrival → Option Request
  | .request r => some r
  | .foreign _ _ => none

def Settings.value (st : Settings) (key : CString) : Option CString := (st.properties.getByName key).bind (·.value)

theorem sorted_addProperty {st : Settings} (h : st.properties.Sorted) (key : CString) (value : Option CString) :
    (addProperty st key value).properties.Sorted := by
  cases value with
  | none => exact h.delete key
  | some v => exact h.add key (some v)

theorem value_addProperty {st : Settings} (h : st.properties.Sorted) (key : CString) (value : Option CString)
    (name : CString) : (addProperty st key value).value name = if key = name then value else st.value name := by
  by_cases hk : key = name
  · subst hk
    cases value with
    | none => simp [Settings.value,addProperty,UdevList.getByName_delete]
    | some v => simp [Settings.value,addProperty,h.getByName_add]
  · rw [if_neg hk]
    cases value with
    | none => exact congrArg (Option.bind · _) (UdevList.getByName_delete_ne (Ne.symm hk))
    | some v => exact congrArg (Option.bind · _) (UdevList.getByName_add_ne _ (Ne.symm hk))

def asked (s : State) (as : List (ℕ × Arrival)) : State :=
  as.foldl (fun s a => handleCtrlMsg s a.1 (a.2.request?.map Request.msg)) s

/-- The value that the last assignment of a key leaves. -/
def lastValue (key : CString) (old : Option CString) (kvs : List (CString × Option CString)) : Option CString :=
  kvs.foldl (fun v kv => if kv.1 = key then kv.2 else v) old

/-- The requests of the root processes are served as they were sent, whatever others send in
between: the main loop does what they ask, and the settings are those that were set last. -/
theorem requests_served {version : CString} (hv : version.length ≤ 10) {as : List (ℕ × Arrival)}
    (has : ∀ a ∈ as, a.2.Ok) (s : State) {st : Settings} (hst : st.properties.Sorted) :
    (as.foldl (serve version) (s,st)).1 = asked s as ∧
      (as.foldl (serve version) (s,st)).2.logPriority =
        (as.filterMap fun a => a.2.request?.bind Request.priority).getLast?.getD st.logPriority ∧
      ∀ key, (as.foldl (serve version) (s,st)).2.value key =
        lastValue key (st.value key) (as.filterMap fun a => a.2.request?.bind Request.assigns) := by
  induction as generalizing s st with
  | nil => exact ⟨rfl,rfl,fun _ => rfl⟩
  | cons a as ih =>
    obtain ⟨ha,hrest⟩ := List.forall_mem_cons.mp has
    obtain ⟨id,a⟩ := a
    cases a with
    | foreign msg uid =>
      have hno : receiveMsg msg (some uid) = none := by
        have hne : some uid ≠ some 0 := fun h => ha (Option.some.inj h)
        simp [receiveMsg,hne]
      have hserve : serve version (s,st) (id,.foreign msg uid) = (handleCtrlMsg s id none,st) := by
        simp [serve,Arrival.received,hno]
      rw [List.foldl_cons,hserve]
      exact ih hrest _ hst
    | request r =>
      obtain ⟨hread,hmsg,hsettings⟩ := request_handled hv (r := r) ha
      set st' := r.assigns.elim st fun kv =>
        addProperty { st with logPriority := r.priority.getD st.logPriority } kv.1 kv.2 with hst'
      have hserve : serve version (s,st) (id,.request r) = (handleCtrlMsg s id (some r.msg),st') := by
        simp only [serve,Arrival.received,hread,Option.elim_some,handleMsg_eq,hmsg,hsettings]
        rfl
      have hsorted : st'.properties.Sorted := by
        cases hr : r.assigns with
        | none => simpa [hst',hr] using hst
        | some kv =>
          simp only [hst',hr,Option.elim_some]
          exact sorted_addProperty (show UdevList.Sorted { st with logPriority := r.priority.getD st.logPriority }.properties from hst) _ _
      have hpriority : st'.logPriority = r.priority.getD st.logPriority := by
        cases r with
        | setLogLevel n => by_cases hn : n ≥ 0 <;> simp [hst',Request.assigns,Request.priority,hn,addProperty]
        | setEnv key =>
          cases hk : assignment (key.take 255) with
          | none => simp [hst',Request.assigns,Request.priority,hk]
          | some kv => cases hkv : kv.2 <;> simp [hst',Request.assigns,Request.priority,hk,addProperty,hkv]
        | _ => rfl
      have hvalue : ∀ key, st'.value key = lastValue key (st.value key) r.assigns.toList := by
        intro key
        cases hr : r.assigns with
        | none => simp [hst',hr,lastValue]
        | some kv =>
          simp only [hst',hr,Option.elim_some,Option.toList_some,lastValue,List.foldl_cons,List.foldl_nil]
          exact value_addProperty (show UdevList.Sorted { st with logPriority := r.priority.getD st.logPriority }.properties from hst) _ _ _
      obtain ⟨hloop,hlast,hvalues⟩ := ih hrest (handleCtrlMsg s id (some r.msg)) hsorted
      rw [List.foldl_cons,hserve]
      refine ⟨hloop,?_,fun key => ?_⟩
      · rw [hlast,hpriority]
        cases hp : r.priority with
        | none => simp [Arrival.request?,hp]
        | some n => simp [Arrival.request?,hp,List.getLast?_cons]
      · rw [hvalues key,hvalue key]
        cases hr : r.assigns with
        | none => simp [Arrival.request?,hr,lastValue]
        | some kv => simp [Arrival.request?,hr,lastValue]

/-- A property is set and unset again, a priority is set, and another user asks for the exit in vain. -/
def fourMessages : List (ℕ × Arrival) :=
  [(0,.request (.setEnv (str "A=1"))),(1,.foreign (Request.exit.send (str "214.4")).bytes 1000),
   (2,.request (.setEnv (str "A="))),(3,.request (.setLogLevel 7))]

theorem requests_served_four :
    let t := fourMessages.foldl (serve (str "214.4")) ({},{})
    t.1.udevExit = false ∧ t.2.logPriority = 7 ∧ t.2.value (str "A") = none ∧ t.2.value (str "UDEV_LOG") = some (str "7") := by
  obtain ⟨hloop,hpriority,hvalue⟩ :=
    requests_served (show (str "214.4").length ≤ 10 by decide) (show ∀ a ∈ fourMessages, a.2.Ok by decide) {}
      (show UdevList.Sorted ({} : Settings).properties from List.Pairwise.nil)
  refine ⟨?_,hpriority.trans rfl,(hvalue _).trans rfl,(hvalue _).trans rfl⟩
  rw [hloop]
  rfl

end CtrlWire
end Udev
