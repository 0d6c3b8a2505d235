import Udev.Properties
import Udev.AddRule

/-! The event that the rules work on, what they use of the system, and the expansion of
`$name` and `%c` in the values of a rule. The system is a parameter: its state `σ` is
what files, attributes, programs and built-in commands read and change. -/
namespace Udev
namespace Rules

open CString Text

structure Stat where
  mode : ℕ
  uid : ℕ := 0
  gid : ℕ := 0
  deriving DecidableEq, Repr

/-- The result of `udev_event_spawn`: the output of a program that succeeded, whether
SIGTERM came meanwhile, and the system after it. -/
structure Spawned (σ : Type) where
  output : Option CString
  sigterm : Bool := false
  host : σ

/-- The result of `udev_builtin_run`: the properties that were added in their order,
whether the properties were read, and the return value 0. -/
structure BuiltinResult (σ : Type) where
  added : List (CString × CString) := []
  touched : Bool := false
  ok : Bool := true
  host : σ

/-- The system calls and the parts of libudev that read the system. -/
structure Host (σ : Type) where
  fnmatch : CString → CString → Bool
  accounts : Accounts
  sysattrValue : σ → CString → CString → Option CString
  newFromSubsystemSysname : σ → CString → CString → Option CString
  stat : σ → CString → Option Stat
  readdir : σ → CString → Option (List CString)
  readFile : σ → CString → Option (List UInt8)
  writeFile : σ → CString → CString → σ
  nanosleep : σ → σ
  spawn : σ → CString → Option (List CString) → Spawned σ
  builtinRun : σ → Device → List Device → BuiltinCmd → CString → BuiltinResult σ
  /-- What others do to the system while one token is handled. -/
  elapse : σ → σ

/-- A system without files, attributes and programs. -/
def emptyHost : Host Unit where
  fnmatch pattern text := pattern = text
  accounts := noAccounts
  sysattrValue _ _ _ := none
  newFromSubsystemSysname _ _ _ := none
  stat _ _ := none
  readdir _ _ := none
  readFile _ _ := none
  writeFile _ _ _ := ()
  nanosleep _ := ()
  spawn _ _ _ := ⟨none,false,()⟩
  builtinRun _ _ _ _ _ := ⟨[],false,false,()⟩
  elapse _ := ()

/-- `struct udev_event`. The devices are `dev` and the chain of its parents; a device of
the chain is named by its place, with 0 for `dev` itself. -/
structure Event where
  dev : Device
  parents : List Device := []
  devParent : Option ℕ := none
  devDb : Option Device := none
  name : Option CString := none
  programResult : Option CString := none
  mode : ℕ := 0o600
  uid : ℕ := 0
  gid : ℕ := 0
  seclabelList : UdevList := []
  runList : UdevList := []
  builtinRun : List BuiltinCmd := []
  builtinRet : List BuiltinCmd := []
  sigterm : Bool := false
  inotifyWatch : Bool := false
  inotifyWatchFinal : Bool := false
  groupSet : Bool := false
  groupFinal : Bool := false
  ownerSet : Bool := false
  ownerFinal : Bool := false
  modeSet : Bool := false
  modeFinal : Bool := false
  nameFinal : Bool := false
  devlinkFinal : Bool := false
  deriving DecidableEq, Repr

namespace Event

def chain (ev : Event) : List Device := ev.dev::ev.parents

/-- `event->dev_parent`. -/
def selected (ev : Event) : Option Device := ev.devParent.bind (ev.chain[·]?)

def touch (ev : Event) (read : Bool) : Event := if read then { ev with dev := ev.dev.sync } else ev

end Event

section Format

variable {σ : Type} (h : Host σ) (s : σ)

/-- `util_resolve_subsys_kernel`: "[subsystem/kernel]attribute" as the path of the
attribute or as its value. -/
def resolveSubsysKernel (string : CString) (size : ℕ) (readValue : Bool) : Option CString :=
  if charAt string 0 ≠ chr '[' then none
  else
    let temp := (strscpy utilPathSize string).drop 1
    (strchr temp (chr '/')).bind fun rest =>
      (strchr (rest.drop 1) (chr ']')).bind fun tail =>
        let attr := if charAt (tail.drop 1) 0 = chr '/' then tail.drop 2 else tail.drop 1
        if readValue ∧ attr = [] then none
        else
          (h.newFromSubsystemSysname s (temp.takeWhile (· ≠ chr '/'))
              ((rest.drop 1).takeWhile (· ≠ chr ']'))).map fun syspath =>
            if readValue then strscpy size ((h.sysattrValue s syspath attr).getD [])
            else strscpyl size (syspath::if attr = [] then [] else [str "/",attr])

inductive SubstType
  | devnode | attr | env | kernel | kernelNumber | driver | devpath | id | major | minor | result
  | parent | name | links | root | sys
  deriving DecidableEq, Repr

def substMap : List (CString × UInt8 × SubstType) :=
  [(str "devnode",chr 'N',.devnode),(str "tempnode",chr 'N',.devnode),(str "attr",chr 's',.attr),
   (str "sysfs",chr 's',.attr),(str "env",chr 'E',.env),(str "kernel",chr 'k',.kernel),
   (str "number",chr 'n',.kernelNumber),(str "driver",chr 'd',.driver),(str "devpath",chr 'p',.devpath),
   (str "id",chr 'b',.id),(str "major",chr 'M',.major),(str "minor",chr 'm',.minor),
   (str "result",chr 'c',.result),(str "parent",chr 'P',.parent),(str "name",chr 'D',.name),
   (str "links",chr 'L',.links),(str "root",chr 'r',.root),(str "sys",chr 'S',.sys)]

/-- The substitution that the text starts with, and the text after its name. -/
def substAt (text : CString) : Option (SubstType × CString) :=
  if charAt text 0 = chr '$' ∧ charAt text 1 ≠ chr '$' then
    (substMap.find? fun m => startswith (text.drop 1) m.1).map fun m =>
      (m.2.2,text.drop (m.1.length+1))
  else if charAt text 0 = chr '%' ∧ charAt text 1 ≠ chr '%' then
    (substMap.find? fun m => charAt text 1 = m.2.1).map fun m => (m.2.2,text.drop 2)
  else none

/-- The attribute in braces after a substitution and the text after it; `none` ends the
whole expansion. -/
def substAttr (text : CString) : Option (Option CString × CString) :=
  if charAt text 0 = chr '{' then
    (strchr (text.drop 1) (chr '}')).bind fun rest =>
      let attr := (text.drop 1).takeWhile (· ≠ chr '}')
      if attr.length ≥ utilPathSize then none else some (some attr,rest.drop 1)
  else some (none,text)

def resultPart : ℕ → CString → Option CString
  | 0, cpos => some cpos
  | i+1, cpos =>
    let cpos := (cpos.dropWhile fun c => !isspace c).dropWhile isspace
    if cpos = [] then none else resultPart i cpos

/-- The program result or one part of it; "N+" is everything from part N on. -/
def substResult (result : CString) (attr : Option CString) : List CString :=
  let r := strtoul 10 (attr.getD [])
  let i := toInt32 r.1
  if i > 0 then
    ((resultPart (i.toNat-1) (strscpy utilPathSize result)).map fun cpos =>
      if charAt r.2 0 ≠ chr '+' then cpos.takeWhile (· ≠ chr ' ') else cpos).toList
  else [result]

/-- The value of an attribute of a named device, of the device or of the selected parent. -/
def substSysattr (ev : Event) (attr : CString) : Option CString :=
  let value := (resolveSubsysKernel h s attr utilNameSize true).or
    ((h.sysattrValue s ev.dev.syspath attr).or
      (if ev.devParent = some 0 then none
       else ev.selected.bind fun d => h.sysattrValue s d.syspath attr))
  value.map fun v =>
    utilReplaceChars (removeTrailing isspace (strscpy utilNameSize v)) (some udevAllowedCharsInput)

/-- A device number as `"%d"` prints it. -/
def decimal (n : UInt64) : CString := str (toString (toInt32 n.toNat))

/-- The name of a node or link under "/dev/". -/
def devName (path : CString) : CString := path.drop 5

def substValue (ev : Event) (attr : Option CString) : SubstType → List CString
  | .devpath => [ev.dev.devpath]
  | .kernel => [ev.dev.sysname]
  | .kernelNumber => ev.dev.sysnum.toList
  | .id => (ev.selected.map (·.sysname)).toList
  | .driver => (ev.selected.bind (·.driver)).toList
  | .major => [decimal (major ev.dev.devnum)]
  | .minor => [decimal (minor ev.dev.devnum)]
  | .result => ev.programResult.elim [] fun r => substResult r attr
  | .attr => (attr.bind (substSysattr h s ev)).toList
  | .parent => (ev.parents.head?.bind fun p => p.devnode.map devName).toList
  | .devnode => ev.dev.devnode.toList
  | .name => [(ev.name.or (ev.dev.devnode.map devName)).getD ev.dev.sysname]
  | .links => (ev.dev.devlinksList.map fun e => devName e.name).intersperse (str " ")
  | .root => [str "/dev"]
  | .sys => [str "/sys"]
  | .env => (attr.bind ev.dev.propertyValue).toList

/-- The loop of `udev_event_apply_format`: the text so far with the room left, and whether
a property was read. -/
def formatLoop (ev : Event) : ℕ → CString → CString × ℕ → Bool → CString × Bool
  | n+1, c::cs, d, read =>
    match substAt (c::cs) with
    | some (type,rest) =>
      match substAttr rest with
      | none => (d.1,read)
      | some (attr,rest) =>
        formatLoop ev n rest ((substValue h s ev attr type).foldl strpcpy d)
          (read || (type = .env && attr.isSome))
    | none =>
      if d.2 = 0 then (d.1,read)
      else
        formatLoop ev n (if (c = chr '$' ∨ c = chr '%') ∧ charAt cs 0 = c then cs.drop 1 else cs)
          (d.1 ++ [c],d.2-1) read
  | _, _, d, read => (d.1,read)

variable {h s} in
theorem formatLoop_subst {ev : Event} (n : ℕ) (d : CString × ℕ) (read : Bool) {src tail : CString}
    {type : SubstType} (hat : substAt src = some (type,tail)) :
    formatLoop h s ev (n+1) src d read =
      match substAttr tail with
      | none => (d.1,read)
      | some (attr,rest) =>
        formatLoop h s ev n rest ((substValue h s ev attr type).foldl strpcpy d)
          (read || (type = .env && attr.isSome)) := by
  cases src with
  | nil => cases hat
  | cons c cs => rw [formatLoop,hat]

/-- `udev_event_apply_format`. -/
def applyFormat (ev : Event) (src : CString) (size : ℕ) : CString × Bool :=
  formatLoop h s ev src.length src ([],size) false

end Format

end Rules
end Udev
