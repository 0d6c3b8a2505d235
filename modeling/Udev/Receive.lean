import Udev.Database
import Udev.SocketFilter

/-! A device that is made from the property strings of a message: each known key sets a value
of the device and its property, any other key is a property only. -/
namespace Udev
namespace Device

open CString Text Decimal

def lastPart (path : CString) : CString := (path.reverse.takeWhile (· ≠ chr '/')).reverse

/-- `udev_device_set_syspath` for a path with a slash. The number is not found when only one
character is in front of it. -/
def setSyspath (d : Device) (syspath : CString) : Device :=
  let sysname := (lastPart syspath).map fun c => if c = chr '!' then chr '/' else c
  let digits := sysname.reverse.takeWhile isdigit
  let d := { d with syspath := syspath, devpath := syspath.drop 4 }.setProperty (str "DEVPATH") (syspath.drop 4)
  { d with
    sysname := sysname
    sysnum :=
      if sysname.length-digits.length ≤ 1 then none else if digits = [] then d.sysnum else some digits.reverse }

def setSubsystem (d : Device) (subsystem : CString) : Device :=
  { d with subsystem := some subsystem }.setProperty (str "SUBSYSTEM") subsystem

def setDevtype (d : Device) (devtype : CString) : Device :=
  { d with devtype := some devtype }.setProperty (str "DEVTYPE") devtype

def setDevnode (d : Device) (devnode : CString) : Device :=
  let devnode := if charAt devnode 0 ≠ chr '/' then str "/dev/" ++ devnode else devnode
  { d with devnode := some devnode }.setProperty (str "DEVNAME") devnode

def setDriver (d : Device) (driver : CString) : Device :=
  { d with driver := some driver }.setProperty (str "DRIVER") driver

/-- `device_set_action`. -/
def actionOf (action : CString) : Option Action :=
  [Action.add,.remove,.change,.move,.online,.offline].find? (·.name = action)

/-- `udev_device_set_action`; an unknown action changes nothing. -/
def setAction (d : Device) (action : CString) : Device :=
  (actionOf action).elim d fun a => { d with action := some a }.setProperty (str "ACTION") action

def setDevpathOld (d : Device) (devpathOld : CString) : Device :=
  { d with devpathOld := some devpathOld }.setProperty (str "DEVPATH_OLD") devpathOld

def setSeqnum (d : Device) (seqnum : ℕ) : Device :=
  { d with seqnum := seqnum }.setProperty (str "SEQNUM") (printNat seqnum)

/-- `udev_device_set_ifindex`, which prints the `int` with `"%u"`. -/
def setIfindex (d : Device) (ifindex : ℤ) : Device :=
  { d with ifindex := ifindex }.setProperty (str "IFINDEX") (printNat (ifindex % 2^32).toNat)

/-- `makedev()` to a 64-bit `dev_t`. -/
def makedev (maj min : UInt64) : UInt64 :=
  (maj &&& (0xfff : UInt64)) <<< 8 ||| (maj &&& (0xfffff000 : UInt64)) <<< 32 |||
    (min &&& (0xff : UInt64)) ||| (min &&& (0xffffff00 : UInt64)) <<< 12

theorem makedev_major_minor (x : UInt64) : makedev (major x) (minor x) = x := by
  apply UInt64.eq_of_toBitVec_eq
  have h₁ : 0xfff#64 = BitVec.allOnes 64 >>> 52 := by decide
  have h₂ : 0xfffff000#64 = (BitVec.allOnes 64 >>> 44) <<< 12 := by decide
  have h₃ : 0xff#64 = BitVec.allOnes 64 >>> 56 := by decide
  have h₄ : 0xffffff00#64 = (BitVec.allOnes 64 >>> 40) <<< 8 := by decide
  simp only [makedev,major,minor,UInt64.toBitVec_or,UInt64.toBitVec_and,UInt64.toBitVec_shiftLeft,
    UInt64.toBitVec_shiftRight,UInt64.toBitVec_ofNat]
  generalize x.toBitVec = b
  rw [h₁,h₂,h₃,h₄]
  simp only [BitVec.reduceMod,BitVec.shiftLeft_eq',BitVec.ushiftRight_eq',BitVec.reduceToNat]
  refine BitVec.eq_of_getLsbD_eq fun i hi => ?_
  simp only [BitVec.getLsbD_or,BitVec.getLsbD_and,BitVec.getLsbD_shiftLeft,BitVec.getLsbD_ushiftRight,
    BitVec.getLsbD_allOnes]
  have hparts : i < 8 ∨ 8 ≤ i ∧ i < 20 ∨ 20 ≤ i ∧ i < 32 ∨ 32 ≤ i ∧ i < 44 ∨ 44 ≤ i := by omega
  rcases hparts with h | h | h | h | h
  all_goals grind

def setDevnum (d : Device) (devnum : UInt64) : Device :=
  ({ d with devnum := devnum }.setProperty (str "MAJOR") (printNat (major devnum).toNat)).setProperty
    (str "MINOR") (printNat (minor devnum).toNat)

/-- `"%#o"` of a mode. -/
def printMode (mode : ℕ) : CString :=
  if mode = 0 then str "0" else chr '0'::(Nat.toDigits 8 mode).map chr

/-- The links that the loop over DEVLINKS adds; an empty one is left out at the end only. -/
def devlinkNames : ℕ → CString → List CString
  | 0, _ => []
  | n+1, slink =>
    match strchr slink (chr ' ') with
    | none => if slink = [] then [] else [slink]
    | some next => slink.takeWhile (· ≠ chr ' ')::devlinkNames n (next.drop 1)

def tagNames : ℕ → CString → List CString
  | 0, _ => []
  | n+1, tag =>
    match strchr tag (chr ':') with
    | none => []
    | some next => tag.takeWhile (· ≠ chr ':')::tagNames n (next.drop 1)

end Device

namespace Receive

open CString Text Decimal Device

/-- A device that is being made, with the fields of `struct udev_device` that only matter
here: whether `devpath` is set, the numbers until they are put together, and the owner, group
and mode of the node. -/
structure Parsed where
  dev : Device := {}
  hasPath : Bool := false
  maj : ℤ := 0
  min : ℤ := 0
  devnodeMode : ℕ := 0
  devnodeUid : ℕ := 0
  devnodeGid : ℕ := 0

/-- `udev_device_add_property` on a device that is being made. -/
def Parsed.setProperty (r : Parsed) (key value : CString) : Parsed := { r with dev := r.dev.setProperty key value }

def Parsed.setDevnodeMode (r : Parsed) (mode : ℕ) : Parsed :=
  { r with devnodeMode := mode }.setProperty (str "DEVMODE") (printMode mode)

def Parsed.setDevnodeUid (r : Parsed) (uid : ℕ) : Parsed :=
  { r with devnodeUid := uid }.setProperty (str "DEVUID") (printNat uid)

def Parsed.setDevnodeGid (r : Parsed) (gid : ℕ) : Parsed :=
  { r with devnodeGid := gid }.setProperty (str "DEVGID") (printNat gid)

/-- `strtoull` to an `int`. -/
def strtoint (s : CString) : ℤ := toInt32 (strtoul 10 s).1

/-- `udev_device_add_property_from_string_parse` on a string with the memory behind its
terminator: the time is read from two bytes behind the start of its value. -/
def addPropertyFromStringParse (r : Parsed) (property : CString) (memory : List UInt8) : Parsed :=
  if startswith property (str "DEVPATH=") then
    { r with dev := r.dev.setSyspath (strscpyl utilPathSize [str "/sys",property.drop 8]), hasPath := true }
  else if startswith property (str "SUBSYSTEM=") then { r with dev := r.dev.setSubsystem (property.drop 10) }
  else if startswith property (str "DEVTYPE=") then { r with dev := r.dev.setDevtype (property.drop 8) }
  else if startswith property (str "DEVNAME=") then { r with dev := r.dev.setDevnode (property.drop 8) }
  else if startswith property (str "DEVLINKS=") then
    let devlinks := strscpy utilPathSize (property.drop 9)
    { r with dev := (devlinkNames (devlinks.length+1) devlinks).foldl addDevlink r.dev }
  else if startswith property (str "TAGS=") then
    let tags := strscpy utilPathSize (property.drop 5)
    { r with dev := ((strchr tags (chr ':')).elim [] fun next => tagNames tags.length (next.drop 1)).foldl addTag r.dev }
  else if startswith property (str "USEC_INITIALIZED=") then
    { r with dev := Database.setUsecInitialized r.dev (strtoul 10 ((property ++ 0::memory).drop 19)).1 }
  else if startswith property (str "DRIVER=") then { r with dev := r.dev.setDriver (property.drop 7) }
  else if startswith property (str "ACTION=") then { r with dev := r.dev.setAction (property.drop 7) }
  else if startswith property (str "MAJOR=") then { r with maj := strtoint (property.drop 6) }
  else if startswith property (str "MINOR=") then { r with min := strtoint (property.drop 6) }
  else if startswith property (str "DEVPATH_OLD=") then { r with dev := r.dev.setDevpathOld (property.drop 12) }
  else if startswith property (str "SEQNUM=") then { r with dev := r.dev.setSeqnum (strtoul 10 (property.drop 7)).1 }
  else if startswith property (str "IFINDEX=") then { r with dev := r.dev.setIfindex (strtoint (property.drop 8)) }
  else if startswith property (str "DEVMODE=") then r.setDevnodeMode (511 &&& (strtoul 8 (property.drop 8)).1)
  else if startswith property (str "DEVUID=") then r.setDevnodeUid ((strtoul 10 (property.drop 7)).1 % 2^32)
  else if startswith property (str "DEVGID=") then r.setDevnodeGid ((strtoul 10 (property.drop 7)).1 % 2^32)
  else { r with dev := (Database.addPropertyFromString r.dev property).1 }

/-- `udev_device_add_property_from_string_parse_finish`. -/
def parseFinish (r : Parsed) : Option Device :=
  let dev :=
    if r.maj > 0 then r.dev.setDevnum (makedev (.ofNat (r.maj % 2^32).toNat) (.ofNat (r.min % 2^32).toNat)) else r.dev
  if r.hasPath = false ∨ dev.subsystem = none then none else some dev

/-- The loop of `udev_monitor_receive_device` over the strings of the message, with what the
receive buffer holds behind it. -/
def parseStrings (behind : List UInt8) : ℕ → List UInt8 → Parsed → Parsed
  | 0, _, r => r
  | fuel+1, message, r =>
    let buf := message ++ behind
    let key := buf.takeWhile (· ≠ 0)
    if message = [] ∨ key = [] then r
    else
      parseStrings behind fuel (message.drop (key.length+1))
        (addPropertyFromStringParse r key (buf.drop (key.length+1)))

theorem parseStrings_string {s : CString} (hne : s ≠ []) (hnul : 0 ∉ s) (z behind : List UInt8) (fuel : ℕ) (r : Parsed) :
    parseStrings behind (fuel+1) (s ++ 0::z) r =
      parseStrings behind fuel z (addPropertyFromStringParse r s (z ++ behind)) := by
  have hbuf : s ++ 0::z ++ behind = s ++ 0::(z ++ behind) := List.append_assoc ..
  have hsome : ¬(s ++ 0::z = [] ∨ s = []) := by simp [hne]
  rw [parseStrings,hbuf]
  simp only [takeWhile_ne hnul,drop_behind]
  exact if_neg hsome

/-- The device of a message; `udev_device_new` gives it the properties of the library context. -/
def receive (global : UdevList) (behind message : List UInt8) : Option Device :=
  parseFinish (parseStrings behind message.length message { dev := { propertiesList := global } })

end Receive
end Udev
