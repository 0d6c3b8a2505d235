import Udev.DeviceIds
import Udev.Enumerate

/-! The scan for devices: through the tag index, below a parent, or over all subsystems. Each
tests the devices it meets by some of the filters. -/
namespace Udev
namespace ScanDevices

open CString Text Device SysDevice Database Enumerate

structure Dirent where
  name : CString
  /-- `DT_DIR` -/
  isDir : Bool
  deriving DecidableEq

/-- What the scan reads: sysfs, the directories, the databases by their ids, and the attributes and
properties of a device. -/
structure System extends Kernel where
  readdir : CString → Option (List Dirent)
  data : CString → Option (List UInt8)
  sysattrValue : Device → CString → Option CString
  propertiesList : Device → UdevList
  fnmatch : CString → CString → Bool

/-- The filters of `struct udev_enumerate`. -/
structure Matches where
  sysattrMatchList : UdevList := []
  sysattrNomatchList : UdevList := []
  subsystemMatchList : UdevList := []
  subsystemNomatchList : UdevList := []
  sysnameMatchList : UdevList := []
  propertiesMatchList : UdevList := []
  tagsMatchList : UdevList := []
  parentMatch : Option Device := none
  matchIsInitialized : Bool := false

section Filters

variable (sys : System) (m : Matches)

def matchSysattrValue (d : Device) (e : ListEntry) : Bool :=
  match sys.sysattrValue d e.name with
  | none => false
  | some val => e.value.elim true fun matchVal => sys.fnmatch matchVal val

def matchSysattr (d : Device) : Bool :=
  m.sysattrNomatchList.all (fun e => !matchSysattrValue sys d e) && m.sysattrMatchList.all (matchSysattrValue sys d)

def matchProperty (d : Device) : Bool :=
  m.propertiesMatchList = [] || m.propertiesMatchList.any fun e =>
    (sys.propertiesList d).any fun p => sys.fnmatch e.name p.name &&
      match e.value, p.value with
      | none, none => true
      | some matchValue, some value => sys.fnmatch matchValue value
      | _, _ => false

/-- The file of `udev_device_read_db`. -/
def database (d : Device) : Option (List UInt8) := (getIdFilename sys.toKernel d).bind sys.data

/-- `udev_device_has_tag` -/
def hasTag (d : Device) (tag : CString) : Bool := (((database sys d).elim d (readDb d)).tagsList.getByName tag).isSome

def matchTag (d : Device) : Bool := m.tagsMatchList.all fun e => hasTag sys d e.name

def matchParent (d : Device) : Bool := m.parentMatch.elim true fun p => startswith d.devpath p.devpath

def matchSysname (sysname : CString) : Bool :=
  m.sysnameMatchList = [] || m.sysnameMatchList.any (sys.fnmatch ·.name sysname)

def matchSubsystem : Option CString → Bool
  | none => false
  | some subsystem => m.subsystemNomatchList.all (fun e => !sys.fnmatch e.name subsystem) &&
      (m.subsystemMatchList = [] || m.subsystemMatchList.any (sys.fnmatch ·.name subsystem))

/-- The test of `match_is_initialized`: a device with a node or an interface needs a database. -/
def matchInitialized (d : Device) : Bool :=
  !m.matchIsInitialized || (database sys d).isSome ||
    !(major (sys.devnum d.syspath) > 0 || sys.ifindex d.syspath > 0)

end Filters

section Scan

variable (sys : System) (m : Matches)

def entries (path : CString) : List Dirent :=
  ((sys.readdir path).getD []).filter fun dent => charAt dent.name 0 ≠ chr '.'

def scanDirAndAddDevices (parent : Device → Bool) (basedir : CString) (subdir1 subdir2 : Option CString) : List CString :=
  let path := strscpyl utilPathSize ([str "/sys/",basedir] ++ subdir1.elim [] (fun s => [str "/",s]) ++
    subdir2.elim [] fun s => [str "/",s])
  (entries sys path).filterMap fun dent =>
    if matchSysname sys m dent.name then
      (newFromSyspath sys.toKernel (strscpyl utilPathSize [path,str "/",dent.name])).bind fun dev =>
        if matchInitialized sys m dev && parent dev && matchTag sys m dev && matchProperty sys m dev &&
            matchSysattr sys m dev then
          some dev.syspath
        else none
    else none

def scanDir (parent : Device → Bool) (basedir : CString) (subdir subsystem : Option CString) : List CString :=
  (entries sys (strscpyl utilPathSize [str "/sys/",basedir])).flatMap fun dent =>
    if matchSubsystem sys m (some (subsystem.getD dent.name)) then
      scanDirAndAddDevices sys m parent basedir (some dent.name) subdir
    else []

def scanDevicesAll (parent : Device → Bool) : List CString :=
  if sys.stat (str "/sys/subsystem") then scanDir sys m parent (str "subsystem") (some (str "devices")) none
  else scanDir sys m parent (str "bus") (some (str "devices")) none ++ scanDir sys m parent (str "class") none none

def tagDir (tag : CString) : CString := strscpyl utilPathSize [str "/run/udev/tags/",tag]

def scanDevicesTags : List CString :=
  m.tagsMatchList.flatMap fun e => (entries sys (tagDir e.name)).filterMap fun dent =>
    (newFromDeviceId sys.toKernel dent.name).bind fun dev =>
      if matchSubsystem sys m (getSubsystem sys.toKernel dev) && matchSysname sys m dev.sysname && matchParent m dev &&
          matchProperty sys m dev && matchSysattr sys m dev then
        some dev.syspath
      else none

/-- The filters of `parent_add_child`. -/
def matchChild (dev : Device) : Bool :=
  matchSubsystem sys m (getSubsystem sys.toKernel dev) && matchSysname sys m dev.sysname && matchProperty sys m dev &&
    matchSysattr sys m dev

def parentAddChild (path : CString) : List CString :=
  ((newFromSyspath sys.toKernel path).bind fun dev => if matchChild sys m dev then some dev.syspath else none).toList

def subdirs (path : CString) : List CString := ((entries sys path).filter (·.isDir)).map (·.name)

def parentCrawlChildren : ℕ → CString → List CString
  | 0, path => (subdirs sys path).flatMap fun name => parentAddChild sys m (path ++ chr '/'::name)
  | maxdepth+1, path => (subdirs sys path).flatMap fun name =>
      parentAddChild sys m (path ++ chr '/'::name) ++ parentCrawlChildren maxdepth (path ++ chr '/'::name)

def scanDevicesChildren (p : Device) : List CString :=
  parentAddChild sys m p.syspath ++ parentCrawlChildren sys m 256 p.syspath

/-- The paths that `udev_enumerate_scan_devices` adds, in their order. -/
def scanDevices : List CString :=
  if m.tagsMatchList ≠ [] then scanDevicesTags sys m
  else
    match m.parentMatch with
    | some p => scanDevicesChildren sys m p
    | none => scanDevicesAll sys m (matchParent m)

def udevEnumerateScanDevices (realloc : ℕ → ℕ → ℕ) (e : UdevEnumerate) : UdevEnumerate :=
  (scanDevices sys m).foldl (syspathAdd realloc) e

def belowParent (d : Device) : Bool :=
  m.parentMatch.elim true fun p => d.devpath = p.devpath || startswith d.devpath (p.devpath ++ str "/")

/-- The devices that are added are those that the full scan adds when it takes the parent by its components. -/
def StrategiesAgree (realloc : ℕ → ℕ → ℕ) : Prop :=
  ∀ path, path ∈ (udevEnumerateScanDevices sys m realloc udevEnumerateNew).devices ↔
    path ∈ scanDevicesAll sys m (belowParent m)

end Scan

theorem devices_scanDevices (sys : System) (m : Matches) (realloc : ℕ → ℕ → ℕ) (e : UdevEnumerate) :
    (udevEnumerateScanDevices sys m realloc e).devices = e.devices ++ scanDevices sys m := by
  have hadd : ∀ (paths : List CString) (e : UdevEnumerate),
      (paths.foldl (syspathAdd realloc) e).devices = e.devices ++ paths := by
    intro paths
    induction paths with
    | nil => simp
    | cons path paths ih =>
      intro e
      rw [List.foldl_cons,ih]
      unfold syspathAdd
      dsimp only
      split_ifs <;> simp
  exact hadd _ e

section Crawl

variable {sys : System} {m : Matches}

def Descends (sys : System) : CString → List CString → Prop
  | _, [] => True
  | path, c::cs => c ∈ subdirs sys path ∧ Descends sys (path ++ chr '/'::c) cs

theorem mem_parentCrawlChildren {n : ℕ} {path x : CString} :
    x ∈ parentCrawlChildren sys m n path ↔ ∃ cs, cs ≠ [] ∧ cs.length ≤ n+1 ∧ Descends sys path cs ∧
      x ∈ parentAddChild sys m (path ++ DevPath.absPath cs) := by
  induction n generalizing path with
  | zero =>
    rw [parentCrawlChildren,List.mem_flatMap]
    constructor
    · rintro ⟨name,hname,hx⟩
      exact ⟨[name],by simp,by simp,⟨hname,trivial⟩,by simpa [DevPath.absPath] using hx⟩
    · rintro ⟨cs,hne,hlen,hdesc,hx⟩
      obtain ⟨c,rfl⟩ : ∃ c, cs = [c] := List.length_eq_one_iff.mp (by
        have := List.length_pos_iff.mpr hne
        omega)
      exact ⟨c,hdesc.1,by simpa [DevPath.absPath] using hx⟩
  | succ n ih =>
    rw [parentCrawlChildren,List.mem_flatMap]
    simp only [List.mem_append,ih]
    constructor
    · rintro ⟨name,hname,hx | ⟨cs,hne,hlen,hdesc,hx⟩⟩
      · exact ⟨[name],by simp,by simp,⟨hname,trivial⟩,by simpa [DevPath.absPath] using hx⟩
      · exact ⟨name::cs,by simp,by simpa using hlen,⟨hname,hdesc⟩,by simpa [DevPath.absPath] using hx⟩
    · rintro ⟨cs,hne,hlen,hdesc,hx⟩
      cases cs with
      | nil => exact absurd rfl hne
      | cons c cs =>
        refine ⟨c,hdesc.1,?_⟩
        cases cs with
        | nil => exact Or.inl (by simpa [DevPath.absPath] using hx)
        | cons c' cs =>
          refine Or.inr ⟨c'::cs,by simp,by simpa using hlen,hdesc.2,?_⟩
          simpa [DevPath.absPath] using hx

def Reaches (sys : System) (path child : CString) : Prop :=
  ∃ cs, child = path ++ DevPath.absPath cs ∧ cs.length ≤ 257 ∧ Descends sys path cs

theorem mem_scanDevicesChildren {p : Device} {x : CString} :
    x ∈ scanDevicesChildren sys m p ↔ ∃ path d, Reaches sys p.syspath path ∧
      newFromSyspath sys.toKernel path = some d ∧ matchChild sys m d = true ∧ x = d.syspath := by
  have hadd : ∀ path, x ∈ parentAddChild sys m path ↔
      ∃ d, newFromSyspath sys.toKernel path = some d ∧ matchChild sys m d = true ∧ x = d.syspath := by
    intro path
    rw [parentAddChild,Option.mem_toList,Option.bind_eq_some_iff]
    refine exists_congr fun d => and_congr_right fun _ => ?_
    split_ifs with h
    · simp [h,eq_comm]
    · simp [h]
  rw [scanDevicesChildren,List.mem_append,mem_parentCrawlChildren,hadd]
  constructor
  · rintro (⟨d,hd⟩ | ⟨cs,hne,hlen,hdesc,hx⟩)
    · exact ⟨p.syspath,d,⟨[],by simp [DevPath.absPath],by simp,trivial⟩,hd⟩
    · obtain ⟨d,hd⟩ := (hadd _).mp hx
      exact ⟨_,d,⟨cs,rfl,hlen,hdesc⟩,hd⟩
  · rintro ⟨path,d,⟨cs,rfl,hlen,hdesc⟩,hd⟩
    cases cs with
    | nil =>
      refine Or.inl ⟨d,?_,hd.2⟩
      simpa [DevPath.absPath] using hd.1
    | cons c cs => exact Or.inr ⟨c::cs,by simp,hlen,hdesc,(hadd _).mpr ⟨d,hd⟩⟩

end Crawl

end ScanDevices
end Udev
