import Udev.Matching
import Udev.RulesFile
import Udev.Runs

/-! The interpreter of the rules, `udev_rules_apply_to_event`: the tokens are handled one
after the other, a match that fails goes on to the next rule, a GOTO to its target. -/
namespace Udev
namespace Rules

open CString RuleLine Text Runs

section Assign

variable {σ : Type} (h : Host σ)

/-- The links of a SYMLINK value, which are separated by spaces. -/
def linkNames : ℕ → CString → List CString
  | 0, _ => []
  | n+1, pos =>
    match strchr pos (chr ' ') with
    | none => if pos = [] then [] else [pos]
    | some rest => pos.takeWhile (· ≠ chr ' ')::linkNames n ((rest.drop 1).dropWhile isspace)

def isAssignOp (op : Op) : Bool := op = .opAssign || op = .opAssignFinal

def isFinal (op : Op) : Bool := op = .opAssignFinal

def assignOwner (ev : Event) (op : Op) (uid : ℕ) : Event :=
  { ev with ownerFinal := ev.ownerFinal || isFinal op, ownerSet := true, uid := uid }

def assignGroup (ev : Event) (op : Op) (gid : ℕ) : Event :=
  { ev with groupFinal := ev.groupFinal || isFinal op, groupSet := true, gid := gid }

def assignMode (ev : Event) (op : Op) (mode : ℕ) : Event :=
  { ev with modeFinal := ev.modeFinal || isFinal op, modeSet := true, mode := mode }

/-- `TK_A_MODE`: an invalid mode is ignored. -/
def assignModeText (st : State σ) (k : KeyToken) : State σ :=
  if st.event.modeFinal then st
  else
    let f := st.format h k.value utilNameSize
    if (strtol 8 f.1).2 ≠ [] then f.2
    else { f.2 with event := assignMode f.2.event k.op (accessMode f.1).toNat }

/-- `TK_A_ENV`: an empty value removes the property, `+=` appends to it. -/
def assignEnv (st : State σ) (k : KeyToken) : State σ :=
  if k.value = [] then
    if k.op = .opAdd then st
    else { st with event := { st.event with dev := st.event.dev.deleteProperty k.attr } }
  else
    let old := if k.op = .opAdd then st.event.dev.propertyValue k.attr else none
    let st : State σ := { st with event := st.event.touch (k.op = .opAdd) }
    let f := st.format h k.value utilNameSize
    let value := old.elim f.1 fun o => strscpyl utilNameSize [o,str " ",f.1]
    { f.2 with event := { f.2.event with dev := f.2.event.dev.importProperty k.attr value } }

/-- `TK_A_TAG`; an invalid name is only logged. -/
def assignTag (st : State σ) (k : KeyToken) : State σ :=
  let f := st.format h k.value utilPathSize
  let dev := if isAssignOp k.op then f.2.event.dev.cleanupTagsList else f.2.event.dev
  { f.2 with event := { f.2.event with dev := dev.addTag f.1 } }

def nameText (esc : Escape) (text : CString) : CString :=
  if esc = .none then text else utilReplaceChars text (some (str "/"))

def linkText (esc : Escape) (text : CString) : CString :=
  match esc with
  | .unset => utilReplaceChars text (some (str "/ "))
  | .replace => utilReplaceChars text (some (str "/"))
  | .none => text

def State.markName (st : State σ) (op : Op) : State σ :=
  { st with event := { st.event with nameFinal := isFinal op } }

def State.setName (st : State σ) (name : CString) : State σ :=
  { st with event := { st.event with name := some name } }

/-- `TK_A_NAME`: a device node is not renamed. -/
def assignName (st : State σ) (k : KeyToken) : State σ :=
  if st.event.nameFinal then st
  else
    let f := (st.markName k.op).format h k.value utilPathSize
    let name := nameText st.esc f.1
    if major f.2.event.dev.devnum ≠ 0 ∧ name ≠ devName (f.2.event.dev.devnode.getD []) then f.2
    else f.2.setName name

def State.startDevlinks (st : State σ) (op : Op) : State σ :=
  let dev := if isAssignOp op then st.event.dev.cleanupDevlinksList else st.event.dev
  { st with event := { st.event with devlinkFinal := isFinal op, dev := dev } }

def State.addDevlinks (st : State σ) (names : List CString) : State σ :=
  let dev := names.foldl (fun d n => d.addDevlink (strscpyl utilPathSize [str "/dev/",n])) st.event.dev
  { st with event := { st.event with dev := dev } }

/-- `TK_A_DEVLINK`. -/
def assignDevlink (st : State σ) (k : KeyToken) : State σ :=
  if st.event.devlinkFinal then st
  else if major st.event.dev.devnum = 0 then st
  else
    let f := (st.startDevlinks k.op).format h k.value utilPathSize
    let temp := linkText st.esc f.1
    f.2.addDevlinks (linkNames (temp.length+1) (temp.dropWhile isspace))

/-- `TK_A_ATTR`. -/
def assignAttr (st : State σ) (k : KeyToken) : State σ :=
  let attr := (resolveSubsysKernel h st.host k.attr utilPathSize false).getD
    (strscpyl utilPathSize [st.event.dev.syspath,str "/",k.attr])
  let attr := attrSubstSubdir h st.host attr utilPathSize
  let f := st.format h k.value utilNameSize
  { f.2 with host := h.writeFile f.2.host attr f.1 }

def assignToken (st : State σ) (k : KeyToken) : State σ :=
  let ev := st.event
  match k.type with
  | .aStringEscapeNone => { st with esc := .none }
  | .aStringEscapeReplace => { st with esc := .replace }
  | .aDbPersist => { st with event := { ev with dev := { ev.dev with dbPersist := true } } }
  | .aInotifyWatch =>
    if ev.inotifyWatchFinal then st
    else
      { st with event :=
          { ev with inotifyWatchFinal := isFinal k.op, inotifyWatch := k.num ≠ 0 } }
  | .aDevlinkPrio => { st with event := { ev with dev := { ev.dev with devlinkPriority := k.num } } }
  | .aOwner =>
    if ev.ownerFinal then st
    else
      let f := st.format h k.value utilNameSize
      { f.2 with event := assignOwner f.2.event k.op ((lookupUser h.accounts f.1).getD 0) }
  | .aGroup =>
    if ev.groupFinal then st
    else
      let f := st.format h k.value utilNameSize
      { f.2 with event := assignGroup f.2.event k.op ((lookupGroup h.accounts f.1).getD 0) }
  | .aMode => assignModeText h st k
  | .aOwnerId => if ev.ownerFinal then st else { st with event := assignOwner ev k.op k.num.toNat }
  | .aGroupId => if ev.groupFinal then st else { st with event := assignGroup ev k.op k.num.toNat }
  | .aModeId => if ev.modeFinal then st else { st with event := assignMode ev k.op k.num.toNat }
  | .aSeclabel =>
    let l := if isAssignOp k.op then [] else ev.seclabelList
    { st with event := { ev with seclabelList := UdevList.append l k.attr (some k.value) 0 } }
  | .aEnv => assignEnv h st k
  | .aTag => assignTag h st k
  | .aName => assignName h st k
  | .aDevlink => assignDevlink h st k
  | .aAttr => assignAttr h st k
  | .aRunBuiltin | .aRunProgram =>
    let l := if isAssignOp k.op then [] else ev.runList
    { st with event := { ev with runList := UdevList.append l k.value none k.builtinCmd.ctorIdx } }
  | _ => st

end Assign

section Parents

variable {σ : Type} (h : Host σ) (s : σ)

/-- One parent key at a device, and whether a property was read. A TAGS key is compared
with the value of the first key of the sequence. -/
def parentKey (ev : Event) (first : KeyToken) (dev : Device) (k : KeyToken) : Bool × Bool :=
  match k.type with
  | .mKernels => (matchKey h k (some dev.sysname),false)
  | .mSubsystems => (matchKey h k dev.subsystem,false)
  | .mDrivers => (matchKey h k dev.driver,false)
  | .mAttrs => matchAttr h s ev dev k
  | .mTags => (if dev.hasTag first.value then k.op ≠ .opNomatch else k.op ≠ .opMatch,false)
  | _ => (false,false)

def parentKeys (ev : Event) (first : KeyToken) (dev : Device) : List KeyToken → Bool × Bool
  | [] => (true,false)
  | k::ks =>
    let r := parentKey h s ev first dev k
    if r.1 then
      let rs := parentKeys ev first dev ks
      (rs.1,r.2 || rs.2)
    else (false,r.2)

/-- The loop over the devices from place `i` on: the place of the first at which all keys
match, and whether a property was read. -/
def parentLoop (ev : Event) (first : KeyToken) (keys : List KeyToken) :
    List Device → ℕ → Option ℕ × Bool
  | [], _ => (none,false)
  | d::ds, i =>
    let r := parentKeys h s { ev with devParent := some i } first d keys
    if r.1 then (some i,r.2)
    else
      let rs := parentLoop ev first keys ds (i+1)
      (rs.1,r.2 || rs.2)

/-- The sequence of parent matches that the tokens start with. -/
def parentSeq : List Token → List KeyToken
  | .key k::ts => if k.type.isParent then k::parentSeq ts else []
  | _ => []

/-- The parent block for the sequence of keys: `event->dev_parent` is the device at which
they match, or none. -/
def matchParents (ev : Event) (keys : List KeyToken) : Bool × Event :=
  let r := parentLoop h s ev (keys.headD {}) keys ev.chain 0
  (r.1.isSome,{ ev.touch r.2 with devParent := r.1 })

end Parents

section Step

variable {σ : Type} (h : Host σ) (ts : List Token)

/-- Where the interpreter is: the token, the rule it belongs to, and the state. -/
structure Config (σ : Type) where
  cur : ℕ := 0
  rule : ℕ := 0
  state : State σ

def canSetName (ev : Event) : Bool :=
  ev.dev.action ≠ some .remove && (major ev.dev.devnum > 0 || ev.dev.ifindex > 0)

def State.elapse (st : State σ) : State σ := { st with host := h.elapse st.host }

/-- The number of tokens of the rule at an index. -/
def tokenCount (i : ℕ) : ℕ :=
  match ts[i]? with
  | some (.rule r) => r.tokenCount
  | _ => 0

def Config.next (c : Config σ) (st : State σ) : Config σ := { c with cur := c.cur+1, state := st }

def Config.nomatch (c : Config σ) (st : State σ) : Config σ :=
  { c with cur := c.rule+tokenCount ts c.rule, state := st }

def stepKey (c : Config σ) (k : KeyToken) : Config σ :=
  if k.type.isParent then
    let keys := parentSeq (ts.drop c.cur)
    let r := matchParents h c.state.host c.state.event keys
    let st := { c.state with event := r.2 }
    if r.1 then { c with cur := c.cur+keys.length, state := st } else c.nomatch ts st
  else if k.type.isAssign then
    if k.type = .aGoto ∧ k.ruleGoto ≠ 0 then { c with cur := k.ruleGoto }
    else c.next (assignToken h c.state k)
  else
    let r := matchToken h c.state k
    if r.1 then c.next r.2 else c.nomatch ts r.2

/-- One round of the loop; `none` when it returns. -/
def step (canSet : Bool) (c : Config σ) : Option (Config σ) :=
  let c : Config σ := { c with state := c.state.elapse h }
  match ts[c.cur]? with
  | some (.rule r) =>
    let c : Config σ := { c with rule := c.cur }
    if !canSet && r.canSetName then some (c.nomatch ts c.state)
    else some (c.next { c.state with esc := .unset })
  | some (.key k) => some (stepKey h ts c k)
  | some .tkEnd => none
  | none => none

/-- The configurations of `udev_rules_apply_to_event` from the first token on. -/
def applyVisits (ev : Event) (s : σ) : List (Config σ) :=
  visits (step h ts (canSetName ev)) ts.length { state := { event := ev, host := s } }

/-- The event as `udev_rules_apply_to_event` leaves it. -/
def applyToEvent (ev : Event) (s : σ) : Event :=
  ((applyVisits h ts ev s).getLast?.map (·.state.event)).getD ev

end Step

end Rules
end Udev
