import Udev.CString

/-! The device object of libudev: the values its getters report, and its
three lists with the functions that change them. A list of the device is
unique, so it is kept sorted by name. -/
namespace Udev

inductive Action
  | add | remove | change | move | online | offline
  deriving DecidableEq, Repr

namespace Action

def name : Action → CString
  | add => str "add"
  | remove => str "remove"
  | change => str "change"
  | move => str "move"
  | online => str "online"
  | offline => str "offline"

end Action

structure ListEntry where
  name : CString
  value : Option CString := none
  num : ℤ := 0
  deriving DecidableEq, Repr

abbrev UdevList := List ListEntry

namespace UdevList

/-- `udev_list_entry_add` on a list without the unique flag. -/
def append (l : UdevList) (name : CString) (value : Option CString) (num : ℤ) : UdevList :=
  l ++ [⟨name,value,num⟩]

/-- `udev_list_entry_add` on a unique list: an existing name gets the new value
and keeps its number, a new one goes to its place in the order of `strcmp`. -/
def add (name : CString) (value : Option CString) : UdevList → UdevList
  | [] => [⟨name,value,0⟩]
  | e::es =>
    if e.name = name then { e with value := value }::es
    else if name < e.name then ⟨name,value,0⟩::e::es
    else e::add name value es

def getByName (l : UdevList) (name : CString) : Option ListEntry := l.find? (·.name = name)

def setNum (l : UdevList) (name : CString) (num : ℤ) : UdevList :=
  l.map fun e => if e.name = name then { e with num := num } else e

def delete (l : UdevList) (name : CString) : UdevList := l.filter (·.name ≠ name)

end UdevList

/-- `major()` of a 64-bit `dev_t`. -/
def major (dev : UInt64) : UInt64 :=
  (dev >>> 8 &&& (0xfff : UInt64)) ||| (dev >>> 32 &&& (0xfffff000 : UInt64))

/-- `minor()` of a 64-bit `dev_t`. -/
def minor (dev : UInt64) : UInt64 :=
  (dev &&& (0xff : UInt64)) ||| (dev >>> 12 &&& (0xffffff00 : UInt64))

structure Device where
  syspath : CString := []
  devpath : CString := []
  sysname : CString := []
  sysnum : Option CString := none
  devnode : Option CString := none
  subsystem : Option CString := none
  devtype : Option CString := none
  driver : Option CString := none
  action : Option Action := none
  devpathOld : Option CString := none
  devlinksList : UdevList := []
  propertiesList : UdevList := []
  tagsList : UdevList := []
  envp : List CString := []
  seqnum : ℕ := 0
  devlinkPriority : ℤ := 0
  devnum : UInt64 := 0
  ifindex : ℤ := 0
  usecInitialized : ℕ := 0
  watchHandle : ℤ := -1
  devlinksUptodate : Bool := false
  envpUptodate : Bool := false
  tagsUptodate : Bool := false
  dbPersist : Bool := false
  deriving DecidableEq, Repr

end Udev
