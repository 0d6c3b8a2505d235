import Udev.Receive
import Udev.Symlinks

/-! Devices from their paths in sysfs and from their ids. The system is a parameter: what
the calls read of sysfs, the numbers in the uevent files, and the names of the interfaces. -/
namespace Udev
namespace SysDevice

open CString Text Decimal Device

structure Kernel where
  readlink : CString → Option CString
  stat : CString → Bool
  isDir : CString → Bool
  /-- MAJOR and MINOR of the uevent file in a directory. -/
  devnum : CString → UInt64
  /-- IFINDEX of the uevent file in a directory. -/
  ifindex : CString → ℤ
  /-- `SIOCGIFNAME` -/
  ifname : ℤ → Option CString

def cutLast (path : CString) : Option CString :=
  if chr '/' ∈ path then some ((path.reverse.dropWhile (· ≠ chr '/')).drop 1).reverse else none

/-- How often a link starts with "../". -/
def countBack : CString → ℕ
  | a::b::c::rest => if [a,b,c] = str "../" then countBack rest+1 else 0
  | _ => 0

/-- Cut the path some times; the path that is left when it has not as many slashes. -/
def cutBack : ℕ → CString → CString ⊕ CString
  | 0, path => .inr path
  | n+1, path =>
    match cutLast path with
    | none => .inl path
    | some base => cutBack n base

/-- The target of `readlink` with a buffer of the size of a path. -/
def readLink (k : Kernel) (path : CString) : Option CString :=
  (k.readlink path).bind fun target =>
    if target.length = 0 ∨ target.length ≥ utilPathSize then none else some target

def utilResolveSysLink (k : Kernel) (syspath : CString) (size : ℕ) : CString :=
  match readLink k syspath with
  | none => syspath
  | some target =>
    match cutBack (countBack target+1) syspath with
    | .inl path => path
    | .inr base => base ++ strscpyl (size-base.length) [str "/",target.drop (countBack target*3)]

def utilGetSysCoreLinkValue (k : Kernel) (slink syspath : CString) (size : ℕ) : Option CString :=
  (readLink k (strscpyl utilPathSize [syspath,str "/",slink])).bind fun target =>
    if chr '/' ∈ target ∧ (lastPart target).length < size then some (lastPart target) else none

/-- `udev_device_new_from_syspath` -/
def newFromSyspath (k : Kernel) (syspath : CString) : Option Device :=
  let subdir := syspath.drop 4
  if ¬startswith syspath (str "/sys") ∨ chr '/' ∉ subdir ∨ lastPart subdir = [] ∨
      subdir.length-(lastPart subdir).length-1 < 2 then none
  else
    let path := utilResolveSysLink k (strscpy utilPathSize syspath) utilPathSize
    let found :=
      if startswith (path.drop 4) (str "/devices/") then k.stat (strscpyl utilPathSize [path,str "/uevent"])
      else k.stat path && k.isDir path
    if found then some (Device.setSyspath {} path) else none

/-- `udev_device_get_subsystem` -/
def getSubsystem (k : Kernel) (d : Device) : Option CString :=
  match utilGetSysCoreLinkValue k (str "subsystem") d.syspath utilNameSize with
  | some subsystem => some subsystem
  | none =>
    if startswith d.devpath (str "/module/") then some (str "module")
    else if (strstr d.devpath (str "/drivers/")).isSome then some (str "drivers")
    else if startswith d.devpath (str "/subsystem/") ∨ startswith d.devpath (str "/class/") ∨
        startswith d.devpath (str "/bus/") then some (str "subsystem")
    else none

def getters (k : Kernel) (d : Device) : Device :=
  { d with subsystem := getSubsystem k d, devnum := k.devnum d.syspath, ifindex := k.ifindex d.syspath }

/-- `udev_device_get_id_filename` -/
def getIdFilename (k : Kernel) (d : Device) : Option CString := Symlinks.idFilename (getters k d)

/-- `udev_device_new_from_devnum` -/
def newFromDevnum (k : Kernel) (type : UInt8) (devnum : UInt64) : Option Device :=
  let path := fun typeStr => str "/sys/dev/" ++ typeStr ++ str "/" ++ Symlinks.unsigned (major devnum) ++ str ":" ++
    Symlinks.unsigned (minor devnum)
  if type = chr 'b' then newFromSyspath k (path (str "block"))
  else if type = chr 'c' then newFromSyspath k (path (str "char"))
  else none

def findPath (k : Kernel) (paths : List CString) : Option Device := (paths.find? k.stat).bind (newFromSyspath k)

/-- `udev_device_new_from_subsystem_sysname` -/
def newFromSubsystemSysname (k : Kernel) (subsystem sysname : CString) : Option Device :=
  let path := strscpyl utilPathSize
  if subsystem = str "subsystem" then
    findPath k [path [str "/sys/subsystem/",sysname],path [str "/sys/bus/",sysname],path [str "/sys/class/",sysname]]
  else if subsystem = str "module" then findPath k [path [str "/sys/module/",sysname]]
  else if subsystem = str "drivers" then
    let subsys := strscpy utilNameSize sysname
    (strchr subsys (chr ':')).bind fun driver =>
      let bus := subsys.takeWhile (· ≠ chr ':')
      findPath k [path [str "/sys/subsystem/",bus,str "/drivers/",driver.drop 1],
        path [str "/sys/bus/",bus,str "/drivers/",driver.drop 1]]
  else
    findPath k [path [str "/sys/subsystem/",subsystem,str "/devices/",sysname],
      path [str "/sys/bus/",subsystem,str "/devices/",sysname],path [str "/sys/class/",subsystem,str "/",sysname]]

def hexDigits (acc : ℕ) : CString → ℕ × CString
  | [] => (acc,[])
  | c::cs =>
    if isdigit c then hexDigits (acc*16+(c.toNat-(chr '0').toNat)) cs
    else if chr 'a' ≤ c ∧ c ≤ chr 'f' then hexDigits (acc*16+(c.toNat-(chr 'a').toNat+10)) cs
    else if chr 'A' ≤ c ∧ c ≤ chr 'F' then hexDigits (acc*16+(c.toNat-(chr 'A').toNat+10)) cs
    else (acc,c::cs)

/-- `"%i"` of `sscanf`: the base is that of a C literal; the number is stored as 32 bits. -/
def scanInt (s : CString) : Option (UInt64 × CString) :=
  let t := s.dropWhile isspace
  let neg := charAt t 0 = chr '-'
  let u := if charAt t 0 = chr '-' ∨ charAt t 0 = chr '+' then t.drop 1 else t
  let r := if startswith u (str "0x") ∨ startswith u (str "0X") then hexDigits 0 (u.drop 2)
    else if startswith u (str "0") then digits 8 0 u
    else digits 10 0 u
  let v : ℤ := if neg then -(min r.1 (2^63) : ℕ) else (min r.1 (2^63-1) : ℕ)
  if r.2.length = u.length then none else some (UInt64.ofNat (v % 2^32).toNat,r.2)

/-- `udev_device_new_from_device_id` -/
def newFromDeviceId (k : Kernel) (id : CString) : Option Device :=
  let type := charAt id 0
  if type = chr 'b' ∨ type = chr 'c' then
    (scanInt (id.drop 1)).bind fun maj =>
      if charAt maj.2 0 = chr ':' then
        (scanInt (maj.2.drop 1)).bind fun min => newFromDevnum k type (makedev maj.1 min.1)
      else none
  else if type = chr 'n' then
    let ifindex := toInt32 (strtoul 10 (id.drop 1)).1
    if ifindex ≤ 0 then none
    else
      (k.ifname ifindex).bind fun name =>
        (newFromSubsystemSysname k (str "net") name).bind fun dev =>
          if k.ifindex dev.syspath = ifindex then some dev else none
  else if type = chr '+' then
    let subsys := strscpy utilPathSize (id.drop 1)
    (strchr subsys (chr ':')).bind fun sysname =>
      newFromSubsystemSysname k (subsys.takeWhile (· ≠ chr ':')) (sysname.drop 1)
  else none

end SysDevice
end Udev
