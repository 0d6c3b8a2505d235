import Udev.ScanDevices

/-! The ways to scan for devices add the same devices when the filters that only some of them test make
no difference. -/
namespace Udev
namespace ScanDevices

open CString Text Device SysDevice DeviceIds DevPath Database Enumerate

open scoped List

def Lists (sys : System) (path name : CString) : Prop := ∃ dent ∈ entries sys path, dent.name = name

/-- The directories of the buses or of the classes list the devices, and entries that are neither links nor
directories. -/
structure Listing (sys : System) (S : Entry → Prop) (base : CString) (dirOf : CString → CString)
    (place : CString → Place) : Prop where
  devices : ∀ e s, S e → e.place = place s → charAt s 0 ≠ chr '.' → charAt e.name 0 ≠ chr '.' →
    Lists sys base s ∧ Lists sys (dirOf s) e.name
  others : ∀ s n, Lists sys base s → Lists sys (dirOf s) n → (∃ e, S e ∧ e.place = place s ∧ e.name = n) ∨
    sys.readlink (dirOf s ++ chr '/'::n) = none ∧ sys.isDir (dirOf s ++ chr '/'::n) = false

/-- What sysfs shows of a set of devices, with the directories that list them. -/
structure Tree (sys : System) (S : Entry → Prop) : Prop extends Layout sys.toKernel S where
  noSubsystem : sys.stat (str "/sys/subsystem") = false
  dirent : ∀ path, ∀ dent ∈ (sys.readdir path).getD [], dent.name ≠ [] ∧ chr '/' ∉ dent.name ∧ dent.name.length ≤ 255
  /-- A directory is no link and its path fits its buffer. -/
  subdir : ∀ path, ∀ name ∈ subdirs sys path,
    sys.readlink (path ++ chr '/'::name) = none ∧ (path ++ chr '/'::name).length < utilPathSize
  buses : Listing sys S (str "/sys/bus") (fun s => str "/sys/bus/" ++ s ++ str "/devices") .busDevice
  classes : Listing sys S (str "/sys/class") (fun s => str "/sys/class/" ++ s) .classDevice
  normal : ∀ e, S e → e.IsDevice → Normal e.syspath
  /-- The directories on the way to a device list it. -/
  way : ∀ e, S e → e.IsDevice → ∀ ps c cs, (∀ x ∈ ps ++ c::cs, Component x) → e.syspath = absPath (ps ++ c::cs) →
    startswith (absPath ps) (str "/sys/devices/") → charAt c 0 ≠ chr '.' → c ∈ subdirs sys (absPath ps)
  /-- What is found below `/sys/devices` and has a subsystem is one of the devices. -/
  found : ∀ path d, newFromSyspath sys.toKernel path = some d → startswith d.syspath (str "/sys/devices/") →
    getSubsystem sys.toKernel d ≠ none → ∃ e, S e ∧ e.IsDevice ∧ d = e.device

/-- The tag index has the ids of the devices whose databases have the tag, and they lead back to them, or nowhere
for drivers. -/
structure Consistent (sys : System) (S : Entry → Prop) : Prop where
  index : ∀ t id, (∃ dent ∈ entries sys (tagDir t), dent.name = id) ↔
    ∃ e, S e ∧ getIdFilename sys.toKernel e.device = some id ∧ hasTag sys e.device t = true
  decodable : ∀ e t, S e → hasTag sys e.device t = true →
    Decodable sys.toKernel S e ∧ ¬e.IsDriver ∨ e.IsDriver ∧ chr ':' ∉ e.name

structure ParentOk (sys : System) (p : Device) : Prop where
  found : newFromSyspath sys.toKernel p.syspath = some p
  normal : Normal p.syspath

def Passes (sys : System) (m : Matches) (e : Entry) : Prop :=
  matchSubsystem sys m (some e.subsystem) = true ∧ matchProperty sys m e.device = true ∧ matchSysattr sys m e.device = true

def Wanted (sys : System) (m : Matches) (parent : Device → Bool) (e : Entry) : Prop :=
  Passes sys m e ∧ matchSysname sys m e.name = true ∧ matchInitialized sys m e.device = true ∧ parent e.device = true ∧
    matchTag sys m e.device = true

def Listed (e : Entry) : Prop := e.IsDevice ∧ charAt e.subsystem 0 ≠ chr '.' ∧ charAt e.name 0 ≠ chr '.'

section Found

variable {k : Kernel}

theorem newFromSyspath_self {p : CString} {d : Device} (h : newFromSyspath k p = some d) :
    d = Device.setSyspath {} d.syspath := by
  unfold newFromSyspath at h
  simp only at h
  split_ifs at h <;> obtain rfl := Option.some.inj h <;> rfl

theorem findPath_self {ps : List CString} {d : Device} (h : findPath k ps = some d) :
    d = Device.setSyspath {} d.syspath := by
  obtain ⟨p,-,hp⟩ := Option.bind_eq_some_iff.mp h
  exact newFromSyspath_self hp

theorem newFromSubsystemSysname_self {subsystem sysname : CString} {d : Device}
    (h : newFromSubsystemSysname k subsystem sysname = some d) : d = Device.setSyspath {} d.syspath := by
  unfold newFromSubsystemSysname at h
  dsimp only at h
  split_ifs at h
  · exact findPath_self h
  · exact findPath_self h
  · obtain ⟨driver,-,hdriver⟩ := Option.bind_eq_some_iff.mp h
    exact findPath_self hdriver
  · exact findPath_self h

theorem newFromDeviceId_self {id : CString} {d : Device} (h : newFromDeviceId k id = some d) :
    d = Device.setSyspath {} d.syspath := by
  unfold newFromDeviceId at h
  dsimp only at h
  split_ifs at h
  · obtain ⟨maj,-,h⟩ := Option.bind_eq_some_iff.mp h
    split_ifs at h
    obtain ⟨min,-,h⟩ := Option.bind_eq_some_iff.mp h
    unfold newFromDevnum at h
    dsimp only at h
    split_ifs at h
    · exact newFromSyspath_self h
    · exact newFromSyspath_self h
  · obtain ⟨name,-,h⟩ := Option.bind_eq_some_iff.mp h
    obtain ⟨dev,hdev,h⟩ := Option.bind_eq_some_iff.mp h
    split_ifs at h
    obtain rfl := Option.some.inj h
    exact newFromSubsystemSysname_self hdev
  · obtain ⟨sysname,-,h⟩ := Option.bind_eq_some_iff.mp h
    exact newFromSubsystemSysname_self h

end Found

section Tree

variable {sys : System} {S : Entry → Prop} {m : Matches}

theorem path_eq {parts : List CString} {p : CString} (hp : parts.flatten = p) (hlen : p.length ≤ 800) :
    strscpyl utilPathSize parts = p :=
  concat_eq hp (Nat.lt_of_le_of_lt hlen (by decide))

theorem mem_scanDirAndAddDevices {parent : Device → Bool} {basedir : CString} {subdir1 subdir2 : Option CString}
    {dir x : CString}
    (hdir : strscpyl utilPathSize ([str "/sys/",basedir] ++ subdir1.elim [] (fun s => [str "/",s]) ++
      subdir2.elim [] fun s => [str "/",s]) = dir) :
    x ∈ scanDirAndAddDevices sys m parent basedir subdir1 subdir2 ↔ ∃ dent ∈ entries sys dir,
      matchSysname sys m dent.name = true ∧ ∃ d, newFromSyspath sys.toKernel (strscpyl utilPathSize [dir,str "/",dent.name]) =
        some d ∧ (matchInitialized sys m d && parent d && matchTag sys m d && matchProperty sys m d &&
          matchSysattr sys m d) = true ∧ x = d.syspath := by
  unfold scanDirAndAddDevices
  rw [hdir,List.mem_filterMap]
  refine exists_congr fun dent => and_congr_right fun _ => ?_
  by_cases hname : matchSysname sys m dent.name = true
  · rw [if_pos hname,Option.bind_eq_some_iff]
    simp only [hname,true_and]
    refine exists_congr fun d => and_congr_right fun _ => ?_
    split_ifs with h
    · simp [h,eq_comm]
    · simp [h]
  · simp [hname]

theorem mem_entries {path : CString} {dent : Dirent} (h : dent ∈ entries sys path) :
    dent ∈ (sys.readdir path).getD [] ∧ charAt dent.name 0 ≠ chr '.' := by
  simpa [entries] using h

/-- The devices that are listed in the directories of the buses or of the classes. -/
theorem mem_scanDir (T : Tree sys S) {parent : Device → Bool} {basedir base : CString} {subdir : Option CString}
    (dirOf : CString → CString) (place : CString → Place) {x : CString}
    (hbase : strscpyl utilPathSize [str "/sys/",basedir] = base)
    (hdir : ∀ s, s.length ≤ 255 → strscpyl utilPathSize ([str "/sys/",basedir] ++ [str "/",s] ++
      subdir.elim [] fun s => [str "/",s]) = dirOf s)
    (hpath : ∀ s, s.length ≤ 255 → ∃ dir, dir ≠ [] ∧ dirOf s = str "/sys/" ++ dir ∧ (dirOf s).length ≤ 300 ∧
      ∀ n, ¬str "devices/" <+: dir ++ chr '/'::n)
    (hlist : Listing sys S base dirOf place)
    (hfound : ∀ e s, S e → e.place = place s → e.subsystem = s ∧
      newFromSyspath sys.toKernel (dirOf s ++ chr '/'::e.name) = some e.device) :
    x ∈ scanDir sys m parent basedir subdir none ↔ ∃ e, S e ∧ e.place = place e.subsystem ∧
      charAt e.subsystem 0 ≠ chr '.' ∧ charAt e.name 0 ≠ chr '.' ∧ Wanted sys m parent e ∧ x = e.syspath := by
  have hwanted : ∀ e : Entry, Wanted sys m parent e ↔ matchSubsystem sys m (some e.subsystem) = true ∧
      matchSysname sys m e.name = true ∧ (matchInitialized sys m e.device && parent e.device && matchTag sys m e.device &&
        matchProperty sys m e.device && matchSysattr sys m e.device) = true := by
    intro e
    simp only [Wanted,Passes,Bool.and_eq_true]
    constructor
    · rintro ⟨⟨hsub,hprop,hattr⟩,hname,hinit,hparent,htag⟩
      exact ⟨hsub,hname,⟨⟨⟨hinit,hparent⟩,htag⟩,hprop⟩,hattr⟩
    · rintro ⟨hsub,hname,⟨⟨⟨hinit,hparent⟩,htag⟩,hprop⟩,hattr⟩
      exact ⟨⟨hsub,hprop,hattr⟩,hname,hinit,hparent,htag⟩
  have hfull : ∀ s, s.length ≤ 255 → strscpyl utilPathSize ([str "/sys/",basedir] ++
      (some s).elim [] (fun s => [str "/",s]) ++ subdir.elim [] fun s => [str "/",s]) = dirOf s := hdir
  have hcopy : ∀ s n, s.length ≤ 255 → n.length ≤ 255 → (dirOf s ++ chr '/'::n).length < utilPathSize ∧
      strscpyl utilPathSize [dirOf s,str "/",n] = dirOf s ++ chr '/'::n := by
    intro s n hs hn
    obtain ⟨-,-,-,hlen,-⟩ := hpath s hs
    have hshort : (dirOf s ++ chr '/'::n).length ≤ 800 := by
      rw [List.length_append,List.length_cons]
      omega
    exact ⟨Nat.lt_of_le_of_lt hshort (by decide),path_eq (by simp [str,chr]) hshort⟩
  rw [scanDir,hbase,List.mem_flatMap]
  constructor
  · rintro ⟨dent,hdent,hx⟩
    obtain ⟨hread,hdot⟩ := mem_entries hdent
    split_ifs at hx with hsub
    · have hlen : dent.name.length ≤ 255 := (T.dirent _ dent hread).2.2
      obtain ⟨dent',hdent',hname,d,hd,hfilters,rfl⟩ := (mem_scanDirAndAddDevices (hfull dent.name hlen)).mp hx
      obtain ⟨hread',hndot⟩ := mem_entries hdent'
      obtain ⟨hne',hslash',hlen'⟩ := T.dirent _ dent' hread'
      obtain ⟨hshort,hpathname⟩ := hcopy dent.name dent'.name hlen hlen'
      rw [hpathname] at hd
      rcases hlist.others dent.name dent'.name ⟨dent,hdent,rfl⟩ ⟨dent',hdent',rfl⟩ with ⟨e,he,hplace,hn⟩ | ⟨hlink,hisDir⟩
      · obtain ⟨hsubsystem,hself⟩ := hfound e dent.name he hplace
        rw [hn,hd] at hself
        obtain rfl := Option.some.inj hself
        rw [← hn] at hname hndot
        rw [Option.getD_none] at hsub
        rw [← hsubsystem] at hplace hdot hsub
        exact ⟨e,he,hplace,hdot,hndot,(hwanted e).mpr ⟨hsub,hname,hfilters⟩,rfl⟩
      · obtain ⟨dir,hdirne,hdirOf,-,hplace⟩ := hpath dent.name hlen
        have hnone := newFromSyspath_attribute (by rw [hdirOf]) hdirne hne' hslash' hshort (hplace _) hlink hisDir
        rw [hnone] at hd
        cases hd
    · exact absurd hx List.not_mem_nil
  · rintro ⟨e,he,hplace,hdot,hndot,hw,rfl⟩
    obtain ⟨hsub,hname,hfilters⟩ := (hwanted e).mp hw
    obtain ⟨⟨dent,hdent,hs⟩,⟨dent',hdent',hn⟩⟩ := hlist.devices e e.subsystem he hplace hdot hndot
    refine ⟨dent,hdent,?_⟩
    have hlen := (T.dirent _ dent (mem_entries hdent).1).2.2
    have hlen' := (T.dirent _ dent' (mem_entries hdent').1).2.2
    have hself := (hfound e _ he hplace).2
    rw [hs] at hlen
    rw [← hn,← (hcopy e.subsystem dent'.name hlen hlen').2] at hself
    rw [← hn] at hname
    rw [hs,Option.getD_none,if_pos hsub]
    exact (mem_scanDirAndAddDevices (hfull e.subsystem hlen)).mpr ⟨dent',hdent',hname,e.device,hself,hfilters,rfl⟩

theorem mem_scanBus (T : Tree sys S) {parent : Device → Bool} {x : CString} :
    x ∈ scanDir sys m parent (str "bus") (some (str "devices")) none ↔ ∃ e, S e ∧ e.place = .busDevice e.subsystem ∧
      charAt e.subsystem 0 ≠ chr '.' ∧ charAt e.name 0 ≠ chr '.' ∧ Wanted sys m parent e ∧ x = e.syspath := by
  have hbus : (str "/sys/bus/").length = 9 := rfl
  have hdevices : (str "/devices").length = 8 := rfl
  refine mem_scanDir T (fun s => str "/sys/bus/" ++ s ++ str "/devices") .busDevice (by decide) (fun s hs => ?_)
    (fun s hs => ⟨str "bus/" ++ s ++ str "/devices",by simp [str],by simp [str],?_,fun n => ?_⟩) T.buses
    fun e s he hplace => ?_
  · refine path_eq (by simp [str]) ?_
    simp only [List.length_append]
    omega
  · simp only [List.length_append]
    omega
  · simp [str,List.cons_prefix_cons,chr]
  · have hs : e.subsystem = s := by rw [Entry.subsystem,hplace]
    have hpath : str "/sys/bus/" ++ s ++ str "/devices" ++ chr '/'::e.name = busPath s e.name := by simp [busPath,str,chr]
    exact ⟨hs,hpath ▸ found_bus T.toLayout he hplace⟩

theorem mem_scanClass (T : Tree sys S) {parent : Device → Bool} {x : CString} :
    x ∈ scanDir sys m parent (str "class") none none ↔ ∃ e, S e ∧ e.place = .classDevice e.subsystem ∧
      charAt e.subsystem 0 ≠ chr '.' ∧ charAt e.name 0 ≠ chr '.' ∧ Wanted sys m parent e ∧ x = e.syspath := by
  have hclass : (str "/sys/class/").length = 11 := rfl
  refine mem_scanDir T (fun s => str "/sys/class/" ++ s) .classDevice (by decide) (fun s hs => ?_)
    (fun s hs => ⟨str "class/" ++ s,by simp [str],by simp [str],?_,fun n => ?_⟩) T.classes fun e s he hplace => ?_
  · refine path_eq (by simp [str]) ?_
    simp only [List.length_append]
    omega
  · simp only [List.length_append]
    omega
  · simp [str,List.cons_prefix_cons,chr]
  · have hs : e.subsystem = s := by rw [Entry.subsystem,hplace]
    have hpath : str "/sys/class/" ++ s ++ chr '/'::e.name = classPath s e.name := by simp [classPath,str,chr]
    exact ⟨hs,hpath ▸ found_class T.toLayout he hplace⟩

theorem isDevice_iff {e : Entry} : e.IsDevice ↔ e.place = .busDevice e.subsystem ∨ e.place = .classDevice e.subsystem := by
  constructor
  · rintro (⟨s,hs⟩ | ⟨s,hs⟩)
    · exact Or.inl (by rw [Entry.subsystem,hs])
    · exact Or.inr (by rw [Entry.subsystem,hs])
  · exact Or.imp (fun h => ⟨_,h⟩) fun h => ⟨_,h⟩

theorem mem_scanDevicesAll (T : Tree sys S) {parent : Device → Bool} {x : CString} :
    x ∈ scanDevicesAll sys m parent ↔ ∃ e, S e ∧ Listed e ∧ Wanted sys m parent e ∧ x = e.syspath := by
  rw [scanDevicesAll,T.noSubsystem,if_neg (by decide),List.mem_append,mem_scanBus T,mem_scanClass T]
  constructor
  · rintro (⟨e,he,hplace,hdot,hndot,hw⟩ | ⟨e,he,hplace,hdot,hndot,hw⟩)
    · exact ⟨e,he,⟨isDevice_iff.mpr (Or.inl hplace),hdot,hndot⟩,hw⟩
    · exact ⟨e,he,⟨isDevice_iff.mpr (Or.inr hplace),hdot,hndot⟩,hw⟩
  · rintro ⟨e,he,⟨hdev,hdot,hndot⟩,hw⟩
    rcases isDevice_iff.mp hdev with hplace | hplace
    · exact Or.inl ⟨e,he,hplace,hdot,hndot,hw⟩
    · exact Or.inr ⟨e,he,hplace,hdot,hndot,hw⟩

theorem mem_scanDevicesTags (T : Tree sys S) (C : Consistent sys S) {x : CString} :
    x ∈ scanDevicesTags sys m ↔ ∃ e, S e ∧ (∃ t ∈ m.tagsMatchList, hasTag sys e.device t.name = true) ∧ Passes sys m e ∧
      ¬e.IsDriver ∧ matchSysname sys m e.device.sysname = true ∧ matchParent m e.device = true ∧ x = e.syspath := by
  have hfilters : ∀ e, S e → ((matchSubsystem sys m (getSubsystem sys.toKernel e.device) && matchSysname sys m e.device.sysname &&
      matchParent m e.device && matchProperty sys m e.device && matchSysattr sys m e.device) = true ↔
      Passes sys m e ∧ matchSysname sys m e.device.sysname = true ∧ matchParent m e.device = true) := by
    intro e he
    rw [getSubsystem_eq T.toLayout he]
    simp only [Passes,Bool.and_eq_true]
    constructor
    · rintro ⟨⟨⟨⟨hsub,hname⟩,hparent⟩,hprop⟩,hattr⟩
      exact ⟨⟨hsub,hprop,hattr⟩,hname,hparent⟩
    · rintro ⟨⟨hsub,hprop,hattr⟩,hname,hparent⟩
      exact ⟨⟨⟨⟨hsub,hname⟩,hparent⟩,hprop⟩,hattr⟩
  have hdecode : ∀ e id t, S e → getIdFilename sys.toKernel e.device = some id → hasTag sys e.device t = true →
      ¬e.IsDriver ∧ newFromDeviceId sys.toKernel id = some e.device ∨ e.IsDriver ∧ newFromDeviceId sys.toKernel id = none := by
    intro e id t he hid ht
    rcases C.decodable e t he ht with ⟨hdec,hdriver⟩ | ⟨hdriver,hcolon⟩
    · obtain ⟨id',hid',-,hfound⟩ := (roundTrips_iff T.toLayout he).mpr hdec
      obtain rfl := Option.some.inj (hid.symm.trans hid')
      obtain ⟨d,hd,hpath⟩ := Option.map_eq_some_iff.mp hfound
      rw [hd,newFromDeviceId_self hd,hpath]
      exact Or.inl ⟨hdriver,rfl⟩
    · exact Or.inr ⟨hdriver,decode_driver_plain T.toLayout he hdriver hcolon hid⟩
  rw [scanDevicesTags,List.mem_flatMap]
  simp only [List.mem_filterMap,Option.bind_eq_some_iff]
  constructor
  · rintro ⟨t,ht,dent,hdent,d,hd,hx⟩
    obtain ⟨e,he,hid,htag⟩ := (C.index t.name dent.name).mp ⟨dent,hdent,rfl⟩
    rcases hdecode e _ _ he hid htag with ⟨hdriver,hself⟩ | ⟨-,hnone⟩
    · rw [hself] at hd
      obtain rfl := Option.some.inj hd
      split_ifs at hx with hpass
      obtain ⟨hp,hname,hparent⟩ := (hfilters e he).mp hpass
      exact ⟨e,he,⟨t,ht,htag⟩,hp,hdriver,hname,hparent,(Option.some.inj hx).symm⟩
    · rw [hnone] at hd
      cases hd
  · rintro ⟨e,he,⟨t,ht,htag⟩,hp,hdriver,hname,hparent,rfl⟩
    have hid := getIdFilename_eq T.toLayout he
    obtain ⟨dent,hdent,heq⟩ := (C.index t.name _).mpr ⟨e,he,hid,htag⟩
    have hself := ((hdecode e _ _ he hid htag).resolve_right fun h => hdriver h.1).2
    refine ⟨t,ht,dent,hdent,e.device,heq ▸ hself,?_⟩
    rw [if_pos ((hfilters e he).mpr ⟨hp,hname,hparent⟩)]
    rfl

end Tree

section Paths

theorem absPath_cons (c : CString) (cs : List CString) : absPath (c::cs) = chr '/'::(c ++ absPath cs) := by
  simp [absPath]

theorem absPath_append (ps cs : List CString) : absPath (ps ++ cs) = absPath ps ++ absPath cs := by
  simp [absPath]

theorem below_absPath {ps es : List CString} (hps : ∀ c ∈ ps, chr '/' ∉ c) (hes : ∀ c ∈ es, chr '/' ∉ c)
    (h : absPath ps ++ [chr '/'] <+: absPath es) : ∃ cs, es = ps ++ cs := by
  induction ps generalizing es with
  | nil => exact ⟨es,rfl⟩
  | cons p ps ih =>
    cases es with
    | nil =>
      have hlen := h.length_le
      simp [absPath] at hlen
    | cons e es =>
      rw [absPath_cons,absPath_cons,List.cons_append,List.cons_prefix_cons] at h
      obtain ⟨rest,hrest⟩ := h.2
      have hp := hps p List.mem_cons_self
      have he := hes e List.mem_cons_self
      obtain ⟨tail,htail⟩ : ∃ tail, absPath ps ++ [chr '/'] = chr '/'::tail := by
        cases ps with
        | nil => exact ⟨[],rfl⟩
        | cons p' ps => exact ⟨_,by rw [absPath_cons,List.cons_append]⟩
      have hleft : p ++ absPath ps ++ [chr '/'] ++ rest = p ++ chr '/'::(tail ++ rest) := by
        rw [List.append_assoc p,htail]
        simp
      rw [hleft] at hrest
      cases es with
      | nil =>
        have hmem : chr '/' ∈ e := by
          have heq : e = p ++ chr '/'::(tail ++ rest) := by simpa [absPath] using hrest.symm
          rw [heq]
          simp
        exact absurd hmem he
      | cons e' es =>
        have hright : e ++ absPath (e'::es) = e ++ chr '/'::(e' ++ absPath es) := by rw [absPath_cons]
        rw [hright] at hrest
        obtain ⟨rfl,heq⟩ := split_slash hp he hrest
        have hprefix : absPath ps ++ [chr '/'] <+: absPath (e'::es) := by
          rw [htail,absPath_cons]
          exact ⟨rest,by rw [List.cons_append,heq]⟩
        obtain ⟨cs,hcs⟩ := ih (fun c hc => hps c (List.mem_cons_of_mem _ hc)) (fun c hc => hes c (List.mem_cons_of_mem _ hc))
          hprefix
        exact ⟨cs,by rw [List.cons_append,← hcs]⟩

theorem absPath_injective {ps es : List CString} (hps : ∀ c ∈ ps, chr '/' ∉ c) (hes : ∀ c ∈ es, chr '/' ∉ c)
    (h : absPath ps = absPath es) : ps = es := by
  have hsplit := congrArg (List.splitOn (chr '/')) h
  rw [splitOn_absPath hps,splitOn_absPath hes] at hsplit
  exact (List.cons.inj hsplit).2

end Paths

def Crawled (p : Device) (e : Entry) : Prop :=
  ∃ cs, e.syspath = p.syspath ++ absPath cs ∧ cs.length ≤ 257 ∧ ∀ c ∈ cs, Component c ∧ charAt c 0 ≠ chr '.'

section Children

variable {sys : System} {S : Entry → Prop} {m : Matches} {p : Device} {e : Entry}

theorem subdirs_component (T : Tree sys S) {path c : CString} (h : c ∈ subdirs sys path) :
    Component c ∧ charAt c 0 ≠ chr '.' := by
  obtain ⟨dent,hdent,rfl⟩ := List.mem_map.mp h
  obtain ⟨hread,hdot⟩ := mem_entries (List.mem_filter.mp hdent).1
  obtain ⟨hne,hslash,-⟩ := T.dirent path dent hread
  refine ⟨⟨hne,hslash,?_,?_⟩,hdot⟩
  · intro heq
    exact hdot (by rw [heq]; rfl)
  · intro heq
    exact hdot (by rw [heq]; rfl)

theorem descends_component (T : Tree sys S) {path : CString} {cs : List CString} (h : Descends sys path cs) :
    ∀ c ∈ cs, Component c ∧ charAt c 0 ≠ chr '.' := by
  induction cs generalizing path with
  | nil => simp
  | cons c cs ih =>
    intro c' hc'
    rcases List.mem_cons.mp hc' with rfl | hc'
    · exact subdirs_component T h.1
    · exact ih h.2 c' hc'

theorem descends_real (T : Tree sys S) {path : CString} {cs : List CString} (hne : cs ≠ []) (h : Descends sys path cs) :
    sys.readlink (path ++ absPath cs) = none ∧ (path ++ absPath cs).length < utilPathSize := by
  induction cs generalizing path with
  | nil => exact absurd rfl hne
  | cons c cs ih =>
    have hpath : path ++ absPath (c::cs) = path ++ chr '/'::c ++ absPath cs := by rw [absPath_cons]; simp
    rw [hpath]
    cases cs with
    | nil =>
      rw [show absPath [] = [] from rfl,List.append_nil]
      exact T.subdir path c h.1
    | cons c' cs => exact ih (List.cons_ne_nil _ _) h.2

theorem descends_of_device (T : Tree sys S) (he : S e) (hdev : e.IsDevice) {ps cs : List CString}
    (hcomp : ∀ x ∈ ps ++ cs, Component x) (hpath : e.syspath = absPath (ps ++ cs))
    (hsys : startswith (absPath ps) (str "/sys/devices/") = true) (hdot : ∀ c ∈ cs, charAt c 0 ≠ chr '.') :
    Descends sys (absPath ps) cs := by
  induction cs generalizing ps with
  | nil => trivial
  | cons c cs ih =>
    have hnext : absPath ps ++ chr '/'::c = absPath (ps ++ [c]) := by rw [absPath_append]; simp [absPath]
    have happ : ps ++ c::cs = (ps ++ [c]) ++ cs := by simp
    refine ⟨T.way e he hdev ps c cs hcomp hpath hsys (hdot c List.mem_cons_self),?_⟩
    rw [hnext]
    refine ih (happ ▸ hcomp) (happ ▸ hpath) ?_ fun c' hc' => hdot c' (List.mem_cons_of_mem _ hc')
    rw [← hnext]
    exact List.isPrefixOf_iff_prefix.mpr ((List.isPrefixOf_iff_prefix.mp hsys).trans (List.prefix_append _ _))

theorem found_device (T : Tree sys S) (he : S e) (hdev : e.IsDevice) (hread : sys.readlink e.syspath = none) :
    newFromSyspath sys.toKernel e.syspath = some e.device := by
  have hname := T.name e he
  have hlen := syspath_length T.toLayout he
  have hsize : utilPathSize = 1024 := rfl
  have hpath : e.syspath = str "/sys/" ++ (str "devices/" ++ e.parent) ++ chr '/'::e.name := by
    rw [hdev.syspath]
    simp [str]
  have huevent : strscpyl utilPathSize [e.syspath,str "/uevent"] = e.syspath ++ str "/uevent" := by
    refine concat_eq (by simp) ?_
    have h7 : (str "/uevent").length = 7 := rfl
    rw [List.length_append]
    omega
  have hdevices : startswith (e.syspath.drop 4) (str "/devices/") = true := by
    rw [hdev.syspath]
    rfl
  rw [newFromSyspath_eq hpath (by simp [str]) hname.1 hname.2.2.2.1 (by omega) (resolve_directory hread _),
    if_pos hdevices,huevent,if_pos (T.uevent e he hdev)]
  rfl

theorem passes_of_child (T : Tree sys S) (he : S e) : matchChild sys m e.device = true ↔
    Passes sys m e ∧ matchSysname sys m e.device.sysname = true := by
  rw [matchChild,getSubsystem_eq T.toLayout he]
  simp only [Passes,Bool.and_eq_true]
  constructor
  · rintro ⟨⟨⟨hsub,hname⟩,hprop⟩,hattr⟩
    exact ⟨⟨hsub,hprop,hattr⟩,hname⟩
  · rintro ⟨⟨hsub,hprop,hattr⟩,hname⟩
    exact ⟨⟨⟨hsub,hname⟩,hprop⟩,hattr⟩

theorem mem_children (T : Tree sys S) (hp : ParentOk sys p) (hsys : startswith p.syspath (str "/sys/devices/") = true)
    {x : CString} : x ∈ scanDevicesChildren sys m p ↔ ∃ e, S e ∧ e.IsDevice ∧ Crawled p e ∧ Passes sys m e ∧
      matchSysname sys m e.device.sysname = true ∧ x = e.syspath := by
  obtain ⟨ps,-,hps,hpath⟩ := hp.normal
  rw [mem_scanDevicesChildren]
  constructor
  · rintro ⟨path,d,⟨cs,rfl,hlen,hdesc⟩,hd,hmatch,rfl⟩
    have hself : d.syspath = p.syspath ++ absPath cs := by
      cases cs with
      | nil =>
        rw [show absPath [] = [] from rfl,List.append_nil] at hd ⊢
        rw [hp.found] at hd
        rw [Option.some.inj hd]
      | cons c cs =>
        obtain ⟨hread,hfits⟩ := descends_real T (List.cons_ne_nil c cs) hdesc
        rw [newFromSyspath_some hd,strscpy_fits hfits,resolve_directory hread]
    have hbelow : startswith d.syspath (str "/sys/devices/") = true := by
      rw [hself]
      exact List.isPrefixOf_iff_prefix.mpr ((List.isPrefixOf_iff_prefix.mp hsys).trans (List.prefix_append _ _))
    have hsub : getSubsystem sys.toKernel d ≠ none := by
      intro hnone
      rw [matchChild,hnone] at hmatch
      simp [matchSubsystem] at hmatch
    obtain ⟨e,he,hdev,rfl⟩ := T.found _ d hd hbelow hsub
    obtain ⟨hpass,hname⟩ := (passes_of_child T he).mp hmatch
    exact ⟨e,he,hdev,⟨cs,hself,hlen,descends_component T hdesc⟩,hpass,hname,rfl⟩
  · rintro ⟨e,he,hdev,⟨cs,hself,hlen,hcs⟩,hpass,hname,rfl⟩
    have habs : e.syspath = absPath (ps ++ cs) := by rw [hself,hpath,absPath_append]
    have hcomp : ∀ x ∈ ps ++ cs, Component x := by
      intro x hx
      rcases List.mem_append.mp hx with hx | hx
      · exact hps x hx
      · exact (hcs x hx).1
    have hdesc : Descends sys p.syspath cs := by
      rw [hpath] at hsys ⊢
      exact descends_of_device T he hdev hcomp habs hsys fun c hc => (hcs c hc).2
    refine ⟨e.syspath,e.device,⟨cs,hself,hlen,hdesc⟩,?_,(passes_of_child T he).mpr ⟨hpass,hname⟩,rfl⟩
    cases cs with
    | nil =>
      rw [show absPath [] = [] from rfl,List.append_nil] at hself
      have hdevice : p = e.device := by rw [newFromSyspath_self hp.found,← hself]; rfl
      rw [hself,hp.found,hdevice]
    | cons c cs =>
      refine found_device T he hdev ?_
      rw [hself]
      exact (descends_real T (List.cons_ne_nil c cs) hdesc).1

theorem below_iff (T : Tree sys S) (he : S e) (hdev : e.IsDevice) (hp : ParentOk sys p) (hm : m.parentMatch = some p)
    (hsys : startswith p.syspath (str "/sys/devices/") = true) : belowParent m e.device = true ↔
      ∃ cs, e.syspath = p.syspath ++ absPath cs ∧ ∀ c ∈ cs, Component c := by
  obtain ⟨ps,-,hps,hpath⟩ := hp.normal
  obtain ⟨es,-,hes,hepath⟩ := T.normal e he hdev
  have hdevpath : p.devpath = p.syspath.drop 4 := by rw [newFromSyspath_self hp.found]; rfl
  have hedevpath : e.device.devpath = e.syspath.drop 4 := rfl
  obtain ⟨prest,hprest⟩ := List.isPrefixOf_iff_prefix.mp hsys
  have hestart := hdev.syspath
  have hpsplit : p.syspath = str "/sys" ++ p.syspath.drop 4 := by rw [← hprest]; rfl
  have hesplit : e.syspath = str "/sys" ++ e.syspath.drop 4 := by rw [hestart]; rfl
  rw [belowParent,hm,Option.elim_some,Bool.or_eq_true,decide_eq_true_eq,hdevpath,hedevpath]
  constructor
  · rintro (heq | hprefix)
    · exact ⟨[],by rw [hesplit,heq,← hpsplit]; exact (List.append_nil _).symm,by simp⟩
    · have hlong : absPath ps ++ [chr '/'] <+: absPath es := by
        rw [← hpath,← hepath,hpsplit,hesplit,List.append_assoc]
        exact List.prefix_append_right_inj _ |>.mpr (List.isPrefixOf_iff_prefix.mp hprefix)
      obtain ⟨cs,rfl⟩ := below_absPath (fun c hc => (hps c hc).2.1) (fun c hc => (hes c hc).2.1) hlong
      exact ⟨cs,by rw [hepath,hpath,absPath_append],fun c hc => hes c (List.mem_append_right _ hc)⟩
  · rintro ⟨cs,hself,hcs⟩
    have hdrop : e.syspath.drop 4 = p.syspath.drop 4 ++ absPath cs := by
      have hboth : str "/sys" ++ e.syspath.drop 4 = str "/sys" ++ (p.syspath.drop 4 ++ absPath cs) := by
        rw [← hesplit,hself,← List.append_assoc,← hpsplit]
      exact List.append_cancel_left hboth
    rw [hdrop]
    cases cs with
    | nil => exact Or.inl (List.append_nil _)
    | cons c cs =>
      refine Or.inr (List.isPrefixOf_iff_prefix.mpr ?_)
      rw [absPath_cons]
      exact ⟨c ++ absPath cs,by simp [str,chr]⟩

theorem not_below (hdev : e.IsDevice) (hp : ParentOk sys p) (hm : m.parentMatch = some p)
    (hsys : startswith p.syspath (str "/sys/devices/") = false) : belowParent m e.device = false := by
  have hdevpath : p.devpath = p.syspath.drop 4 := by rw [newFromSyspath_self hp.found]; rfl
  have hedevpath : e.device.devpath = str "/devices/" ++ (e.parent ++ chr '/'::e.name) := by
    have hdrop : e.device.devpath = e.syspath.drop 4 := rfl
    rw [hdrop,hdev.syspath]
    rfl
  obtain ⟨q,hq⟩ : ∃ q, p.syspath.drop 4 = q := ⟨_,rfl⟩
  have hparts : p.syspath = str "/sys" ++ q ∧ q ≠ [] ∧ q ≠ str "/devices" := by
    have hgood : ¬(¬startswith p.syspath (str "/sys") ∨ chr '/' ∉ q ∨ lastPart q = [] ∨
        q.length-(lastPart q).length-1 < 2) := by
      intro hbad
      have hnone : newFromSyspath sys.toKernel p.syspath = none := by
        unfold newFromSyspath
        simp only [hq]
        exact if_pos hbad
      rw [hp.found] at hnone
      cases hnone
    simp only [not_or,not_not] at hgood
    obtain ⟨hstart,hslash,-,hlen⟩ := hgood
    obtain ⟨rest,hrest⟩ := List.isPrefixOf_iff_prefix.mp hstart
    refine ⟨?_,?_,?_⟩
    · rw [← hq,← hrest]
      rfl
    · rintro rfl
      exact absurd hslash List.not_mem_nil
    · rintro rfl
      exact hlen (by decide)
  have hnot : ¬str "/devices/" <+: q := by
    intro h
    have hstart : startswith p.syspath (str "/sys/devices/") = true := by
      rw [hparts.1]
      exact List.isPrefixOf_iff_prefix.mpr (List.prefix_append_right_inj (str "/sys") |>.mpr h)
    rw [hsys] at hstart
    cases hstart
  rw [belowParent,hm,Option.elim_some,hdevpath,hq,hedevpath,Bool.or_eq_false_iff,decide_eq_false_iff_not]
  refine ⟨fun heq => hnot ⟨_,heq⟩,?_⟩
  rw [Bool.eq_false_iff]
  intro h
  have hprefix := List.isPrefixOf_iff_prefix.mp h
  by_cases hlen : 9 ≤ q.length
  · exact hnot (List.prefix_of_prefix_length_le (List.prefix_append _ _) ((List.prefix_append _ _).trans hprefix) hlen)
  · have hshort : q ++ str "/" <+: str "/devices/" := by
      refine List.prefix_of_prefix_length_le hprefix (List.prefix_append _ _) ?_
      have h9 : (str "/devices/").length = 9 := rfl
      have h1 : (str "/").length = 1 := rfl
      rw [List.length_append]
      omega
    have hall : ∀ n < 9, str "/devices/" = (str "/devices/").take n ++ str "/" ++ (str "/devices/").drop (n+1) →
        (str "/devices/").take n = [] ∨ (str "/devices/").take n = str "/devices" := by
      decide
    obtain ⟨rest,hrest⟩ := hshort
    have htake : (str "/devices/").take q.length = q := by rw [← hrest]; simp
    have hdrop : (str "/devices/").drop (q.length+1) = rest := by rw [← hrest]; simp [str]
    rcases hall q.length (by omega) (by rw [htake,hdrop,hrest]) with h | h
    · exact hparts.2.1 (htake.symm.trans h)
    · exact hparts.2.2 (htake.symm.trans h)

end Children

/-- The filters that the scans do not all test make no difference for the devices that pass the others. -/
def SameChoice (sys : System) (m : Matches) (S : Entry → Prop) : Prop :=
  if m.tagsMatchList ≠ [] then
    ∀ e, S e → Passes sys m e → (∃ t ∈ m.tagsMatchList, hasTag sys e.device t.name = true) →
      (¬e.IsDriver ∧ matchSysname sys m e.device.sysname = true ∧ matchParent m e.device = true ↔
        Listed e ∧ matchSysname sys m e.name = true ∧ belowParent m e.device = true ∧ matchTag sys m e.device = true)
  else
    match m.parentMatch with
    | none => True
    | some p =>
      if startswith p.syspath (str "/sys/devices/") then
        ∀ e, S e → e.IsDevice → Passes sys m e → belowParent m e.device = true →
          (Crawled p e ∧ matchSysname sys m e.device.sysname = true ↔
            Listed e ∧ matchSysname sys m e.name = true ∧ matchInitialized sys m e.device = true)
      else ∀ path d, Reaches sys p.syspath path → newFromSyspath sys.toKernel path = some d → matchChild sys m d = false

section Agree

variable {sys : System} {S : Entry → Prop} {m : Matches} {realloc : ℕ → ℕ → ℕ}

theorem paths_iff (T : Tree sys S) {A B : Entry → Prop} :
    (∀ x, (∃ e, S e ∧ A e ∧ x = e.syspath) ↔ ∃ e, S e ∧ B e ∧ x = e.syspath) ↔ ∀ e, S e → (A e ↔ B e) := by
  have hone : ∀ (P : Entry → Prop) e, S e → ((∃ e', S e' ∧ P e' ∧ e.syspath = e'.syspath) ↔ P e) := by
    intro P e he
    constructor
    · rintro ⟨e',he',hP,heq⟩
      rwa [T.distinct e e' he he' heq]
    · exact fun hP => ⟨e,he,hP,rfl⟩
  constructor
  · intro h e he
    rw [← hone A e he,← hone B e he]
    exact h e.syspath
  · intro h x
    exact exists_congr fun e => and_congr_right fun he => and_congr_left fun _ => h e he

theorem hasTag_database {d : Device} (hd : d.tagsList = []) {t : CString} (h : hasTag sys d t = true) :
    (database sys d).isSome = true := by
  rw [hasTag] at h
  cases hdata : database sys d with
  | none =>
    rw [hdata,Option.elim_none,hd] at h
    cases h
  | some file => rfl

/-- What all devices are compared with: the entries that are listed and wanted. -/
theorem mem_scanDevicesAll_below (T : Tree sys S) (x : CString) :
    x ∈ scanDevicesAll sys m (belowParent m) ↔ ∃ e, S e ∧ (Listed e ∧ Wanted sys m (belowParent m) e) ∧ x = e.syspath := by
  rw [mem_scanDevicesAll T]
  simp only [and_assoc]

theorem tags_agree_iff (T : Tree sys S) (C : Consistent sys S) (hm : m.tagsMatchList ≠ []) :
    (∀ x, x ∈ scanDevicesTags sys m ↔ x ∈ scanDevicesAll sys m (belowParent m)) ↔ SameChoice sys m S := by
  rw [SameChoice,if_pos hm]
  have hleft : ∀ x, x ∈ scanDevicesTags sys m ↔ ∃ e, S e ∧ ((∃ t ∈ m.tagsMatchList, hasTag sys e.device t.name = true) ∧
      Passes sys m e ∧ ¬e.IsDriver ∧ matchSysname sys m e.device.sysname = true ∧ matchParent m e.device = true) ∧
        x = e.syspath := by
    intro x
    rw [mem_scanDevicesTags T C]
    simp only [and_assoc]
  have hright := mem_scanDevicesAll_below (m := m) T
  simp only [hleft,hright]
  rw [paths_iff T]
  refine forall_congr' fun e => imp_congr_right fun _ => ?_
  have hany : matchTag sys m e.device = true → ∃ t ∈ m.tagsMatchList, hasTag sys e.device t.name = true := by
    intro hall
    obtain ⟨t,ht⟩ := List.exists_mem_of_ne_nil _ hm
    exact ⟨t,ht,List.all_eq_true.mp hall t ht⟩
  have hinit : (∃ t ∈ m.tagsMatchList, hasTag sys e.device t.name = true) → matchInitialized sys m e.device = true := by
    rintro ⟨t,-,ht⟩
    rw [matchInitialized,hasTag_database rfl ht]
    simp
  constructor
  · intro h hpass htag
    constructor
    · intro hboth
      obtain ⟨hlisted,-,hname,-,hbelow,hall⟩ := h.mp ⟨htag,hpass,hboth⟩
      exact ⟨hlisted,hname,hbelow,hall⟩
    · rintro ⟨hlisted,hname,hbelow,hall⟩
      exact (h.mpr ⟨hlisted,hpass,hname,hinit htag,hbelow,hall⟩).2.2
  · intro h
    constructor
    · rintro ⟨htag,hpass,hboth⟩
      obtain ⟨hlisted,hname,hbelow,hall⟩ := (h hpass htag).mp hboth
      exact ⟨hlisted,hpass,hname,hinit htag,hbelow,hall⟩
    · rintro ⟨hlisted,hpass,hname,-,hbelow,hall⟩
      exact ⟨hany hall,hpass,(h hpass (hany hall)).mpr ⟨hlisted,hname,hbelow,hall⟩⟩

theorem children_agree_iff (T : Tree sys S) {p : Device} (hp : ParentOk sys p) (hm : m.tagsMatchList = [])
    (hparent : m.parentMatch = some p) :
    (∀ x, x ∈ scanDevicesChildren sys m p ↔ x ∈ scanDevicesAll sys m (belowParent m)) ↔ SameChoice sys m S := by
  have htag : ∀ d, matchTag sys m d = true := by
    intro d
    rw [matchTag,hm]
    rfl
  have hright := mem_scanDevicesAll_below (m := m) T
  rw [SameChoice,if_neg (not_not.mpr hm),hparent]
  dsimp only
  by_cases hsys : startswith p.syspath (str "/sys/devices/") = true
  · rw [if_pos hsys]
    have hleft : ∀ x, x ∈ scanDevicesChildren sys m p ↔ ∃ e, S e ∧ (e.IsDevice ∧ Crawled p e ∧ Passes sys m e ∧
        matchSysname sys m e.device.sysname = true) ∧ x = e.syspath := by
      intro x
      rw [mem_children T hp hsys]
      simp only [and_assoc]
    simp only [hleft,hright]
    rw [paths_iff T]
    refine forall_congr' fun e => imp_congr_right fun he => ?_
    have hcrawl : e.IsDevice → Crawled p e → belowParent m e.device = true := by
      rintro hdev ⟨cs,hself,-,hcs⟩
      exact (below_iff T he hdev hp hparent hsys).mpr ⟨cs,hself,fun c hc => (hcs c hc).1⟩
    constructor
    · intro h hdev hpass hbelow
      constructor
      · rintro ⟨hcrawled,hname⟩
        obtain ⟨hlisted,-,hname',hinit,-⟩ := h.mp ⟨hdev,hcrawled,hpass,hname⟩
        exact ⟨hlisted,hname',hinit⟩
      · rintro ⟨hlisted,hname',hinit⟩
        obtain ⟨-,hcrawled,-,hname⟩ := h.mpr ⟨hlisted,hpass,hname',hinit,hbelow,htag _⟩
        exact ⟨hcrawled,hname⟩
    · intro h
      constructor
      · rintro ⟨hdev,hcrawled,hpass,hname⟩
        obtain ⟨hlisted,hname',hinit⟩ := (h hdev hpass (hcrawl hdev hcrawled)).mp ⟨hcrawled,hname⟩
        exact ⟨hlisted,hpass,hname',hinit,hcrawl hdev hcrawled,htag _⟩
      · rintro ⟨hlisted,hpass,hname',hinit,hbelow,-⟩
        obtain ⟨hcrawled,hname⟩ := (h hlisted.1 hpass hbelow).mpr ⟨hlisted,hname',hinit⟩
        exact ⟨hlisted.1,hcrawled,hpass,hname⟩
  · rw [if_neg hsys]
    have hnone : ∀ x, ¬x ∈ scanDevicesAll sys m (belowParent m) := by
      intro x hx
      obtain ⟨e,he,⟨⟨hdev,-⟩,-,-,-,hbelow,-⟩,-⟩ := (hright x).mp hx
      rw [not_below hdev hp hparent (Bool.eq_false_iff.mpr hsys)] at hbelow
      cases hbelow
    simp only [hnone,iff_false,mem_scanDevicesChildren,not_exists,not_and]
    constructor
    · intro h path d hpath hd
      rw [Bool.eq_false_iff]
      intro hmatch
      exact h d.syspath path d hpath hd hmatch rfl
    · intro h x path d hpath hd hmatch _
      rw [h path d hpath hd] at hmatch
      cases hmatch

theorem strategies_agree_iff (T : Tree sys S) (C : Consistent sys S) (hparent : ∀ p, m.parentMatch = some p → ParentOk sys p) :
    StrategiesAgree sys m realloc ↔ SameChoice sys m S := by
  unfold StrategiesAgree
  rw [devices_scanDevices,scanDevices]
  have hnew : udevEnumerateNew.devices = [] := rfl
  rw [hnew,List.nil_append]
  by_cases hm : m.tagsMatchList = []
  · rw [if_neg (not_not.mpr hm)]
    cases hp : m.parentMatch with
    | some p => exact children_agree_iff T (hparent p hp) hm hp
    | none =>
      have hsame : matchParent m = belowParent m := by
        funext d
        rw [matchParent,belowParent,hp]
        rfl
      rw [SameChoice,if_neg (not_not.mpr hm),hp]
      dsimp only
      rw [hsame]
      simp
  · rw [if_pos hm]
    exact tags_agree_iff T C hm

end Agree

section Seat

def seatSystem : System where
  toKernel := driversKernel
  readdir path :=
    if path = str "/sys/class" then some [⟨str "block",true⟩]
    else if path = str "/sys/class/block" then some [⟨str "sda",false⟩]
    else if path = str "/sys/devices/pci0" then some [⟨str "sda",true⟩]
    else if path = str "/run/udev/tags/seat" then some [⟨str "b8:0",false⟩]
    else none
  data id := if id = str "b8:0" then some (str "G:seat\n") else none
  sysattrValue _ _ := none
  propertiesList _ := []
  fnmatch pattern text := pattern = text

theorem seat_readdir {path : CString} {dent : Dirent} (h : dent ∈ (seatSystem.readdir path).getD []) :
    (path = str "/sys/class" ∧ dent = ⟨str "block",true⟩) ∨ (path = str "/sys/class/block" ∧ dent = ⟨str "sda",false⟩) ∨
      (path = str "/sys/devices/pci0" ∧ dent = ⟨str "sda",true⟩) ∨
      (path = str "/run/udev/tags/seat" ∧ dent = ⟨str "b8:0",false⟩) := by
  simp only [seatSystem] at h
  split_ifs at h with h₁ h₂ h₃ h₄
  · exact Or.inl ⟨h₁,List.mem_singleton.mp h⟩
  · exact Or.inr (Or.inl ⟨h₂,List.mem_singleton.mp h⟩)
  · exact Or.inr (Or.inr (Or.inl ⟨h₃,List.mem_singleton.mp h⟩))
  · exact Or.inr (Or.inr (Or.inr ⟨h₄,List.mem_singleton.mp h⟩))
  · exact absurd h List.not_mem_nil

theorem seat_found {path : CString} {d : Device} (hd : newFromSyspath driversKernel path = some d)
    (hsys : startswith d.syspath (str "/sys/devices/") = true) : d = disk.device := by
  obtain ⟨rest,hrest⟩ := List.isPrefixOf_iff_prefix.mp hsys
  have hself := newFromSyspath_self hd
  have hpath := newFromSyspath_some hd
  have hstat : driversKernel.stat (strscpyl utilPathSize [d.syspath,str "/uevent"]) = true := by
    unfold newFromSyspath at hd
    dsimp only at hd
    rw [← hpath] at hd
    have hdevices : startswith (d.syspath.drop 4) (str "/devices/") = true := by rw [← hrest]; rfl
    rw [if_pos hdevices] at hd
    split_ifs at hd with hbad hstat
    exact hstat
  have hmem : strscpyl utilPathSize [d.syspath,str "/uevent"] ∈ [str "/sys/class/block/sda",
      str "/sys/devices/pci0/sda/uevent",str "/sys/bus/pci/drivers/ahci",str "/sys/bus/platform/drivers/ahci"] :=
    of_decide_eq_true hstat
  have hall : ∀ q ∈ [str "/sys/class/block/sda",str "/sys/devices/pci0/sda/uevent",str "/sys/bus/pci/drivers/ahci",
      str "/sys/bus/platform/drivers/ahci"], q.length+1 < utilPathSize ∧ (q.take 13 = str "/sys/devices/" →
        q = str "/sys/devices/pci0/sda" ++ str "/uevent") := by
    decide
  obtain ⟨hlen,heq⟩ := hall _ hmem
  have hwhole : strscpyl utilPathSize [d.syspath,str "/uevent"] = d.syspath ++ str "/uevent" := by
    rw [strscpyl_short hlen]
    simp
  rw [hwhole] at heq
  have hpathq := List.append_cancel_right (heq (by rw [← hrest]; rfl))
  rw [hself,hpathq]
  rfl

theorem tree_seat : Tree seatSystem twoDrivers where
  toLayout := layout_drivers
  noSubsystem := by decide
  dirent path dent h := by
    rcases seat_readdir h with ⟨-,rfl⟩ | ⟨-,rfl⟩ | ⟨-,rfl⟩ | ⟨-,rfl⟩ <;> decide
  subdir path name h := by
    obtain ⟨dent,hdent,rfl⟩ := List.mem_map.mp h
    obtain ⟨hmem,hdir⟩ := List.mem_filter.mp hdent
    rcases seat_readdir (mem_entries hmem).1 with ⟨rfl,rfl⟩ | ⟨rfl,rfl⟩ | ⟨rfl,rfl⟩ | ⟨rfl,rfl⟩
    · decide
    · cases hdir
    · decide
    · cases hdir
  buses := {
    devices := by rintro e s (rfl | rfl | rfl) hplace <;> cases hplace
    others := by
      rintro s n ⟨dent,hdent,-⟩
      have hnil : entries seatSystem (str "/sys/bus") = [] := by decide
      rw [hnil] at hdent
      exact absurd hdent List.not_mem_nil }
  classes := {
    devices := by
      rintro e s (rfl | rfl | rfl) hplace hs hn
      · obtain rfl := Place.classDevice.inj hplace
        exact ⟨⟨⟨str "block",true⟩,by decide,rfl⟩,⟨⟨str "sda",false⟩,by decide,rfl⟩⟩
      · cases hplace
      · cases hplace
    others := by
      rintro s n ⟨dent,hdent,rfl⟩ ⟨dent',hdent',rfl⟩
      rcases seat_readdir (mem_entries hdent).1 with ⟨-,rfl⟩ | ⟨h,-⟩ | ⟨h,-⟩ | ⟨h,-⟩
      · rcases seat_readdir (mem_entries hdent').1 with ⟨h,-⟩ | ⟨-,rfl⟩ | ⟨h,-⟩ | ⟨h,-⟩
        · exact absurd h (by decide)
        · exact Or.inl ⟨disk,Or.inl rfl,rfl,rfl⟩
        · exact absurd h (by decide)
        · exact absurd h (by decide)
      · exact absurd h (by decide)
      · exact absurd h (by decide)
      · exact absurd h (by decide) }
  normal e he hdev := by
    rcases he with rfl | rfl | rfl
    · exact ⟨[str "sys",str "devices",str "pci0",str "sda"],by decide,by decide,by decide⟩
    · rcases hdev with ⟨s,hs⟩ | ⟨s,hs⟩ <;> cases hs
    · rcases hdev with ⟨s,hs⟩ | ⟨s,hs⟩ <;> cases hs
  way e he hdev ps c cs hcomp hpath hsys hdot := by
    rcases he with rfl | rfl | rfl
    · have hlist : [str "sys",str "devices",str "pci0",str "sda"] = ps ++ c::cs := by
        refine absPath_injective (by decide) (fun x hx => (hcomp x hx).2.1) ?_
        rw [← hpath]
        decide
      rcases ps with _ | ⟨a,_ | ⟨b,_ | ⟨d,_ | ⟨f,ps⟩⟩⟩⟩
      · exact absurd hsys (by decide)
      · injection hlist with ha hrest
        subst ha
        exact absurd hsys (by decide)
      · injection hlist with ha hrest
        injection hrest with hb hrest
        subst ha hb
        exact absurd hsys (by decide)
      · injection hlist with ha hrest
        injection hrest with hb hrest
        injection hrest with hd hrest
        injection hrest with hc hrest
        subst ha hb hd hc
        decide
      · have hlen := congrArg List.length hlist
        simp only [List.length_cons,List.length_append,List.length_nil] at hlen
        omega
    · rcases hdev with ⟨s,hs⟩ | ⟨s,hs⟩ <;> cases hs
    · rcases hdev with ⟨s,hs⟩ | ⟨s,hs⟩ <;> cases hs
  found path d hd hsys _ := ⟨disk,Or.inl rfl,Or.inr ⟨_,rfl⟩,seat_found hd hsys⟩

theorem seat_index {t : CString} {dent : Dirent} (h : dent ∈ entries seatSystem (tagDir t)) :
    t = str "seat" ∧ dent = ⟨str "b8:0",false⟩ := by
  have hall : ∀ q ∈ [str "/sys/class",str "/sys/class/block",str "/sys/devices/pci0",str "/run/udev/tags/seat"],
      q.length+1 < utilPathSize ∧ (q.take 15 = str "/run/udev/tags/" → q = str "/run/udev/tags/" ++ str "seat") := by
    decide
  have hcases := seat_readdir (mem_entries h).1
  have hmem : tagDir t ∈ [str "/sys/class",str "/sys/class/block",str "/sys/devices/pci0",str "/run/udev/tags/seat"] := by
    rcases hcases with ⟨h,-⟩ | ⟨h,-⟩ | ⟨h,-⟩ | ⟨h,-⟩ <;> simp [h]
  obtain ⟨hlen,heq⟩ := hall _ hmem
  have hwhole : tagDir t = str "/run/udev/tags/" ++ t := by
    rw [tagDir,strscpyl_short hlen]
    simp
  rw [hwhole] at heq hcases
  obtain rfl := List.append_cancel_left (heq rfl)
  rcases hcases with ⟨h,-⟩ | ⟨h,-⟩ | ⟨h,-⟩ | ⟨-,rfl⟩
  · exact absurd h (by decide)
  · exact absurd h (by decide)
  · exact absurd h (by decide)
  · exact ⟨rfl,rfl⟩

theorem seat_tag {e : Entry} {t : CString} (he : twoDrivers e) (h : hasTag seatSystem e.device t = true) :
    e = disk ∧ t = str "seat" := by
  have hdata := hasTag_database rfl h
  rcases he with rfl | rfl | rfl
  · have htags : ((database seatSystem disk.device).elim disk.device (readDb disk.device)).tagsList =
        [⟨str "seat",none,0⟩] := by decide
    rw [hasTag,htags,UdevList.getByName] at h
    refine ⟨rfl,?_⟩
    by_contra hne
    simp [Ne.symm hne] at h
  · exact absurd hdata (by decide)
  · exact absurd hdata (by decide)

theorem consistent_seat : Consistent seatSystem twoDrivers where
  index t id := by
    constructor
    · rintro ⟨dent,hdent,rfl⟩
      obtain ⟨rfl,rfl⟩ := seat_index hdent
      exact ⟨disk,Or.inl rfl,by decide,by decide⟩
    · rintro ⟨e,he,hid,htag⟩
      obtain ⟨rfl,rfl⟩ := seat_tag he htag
      refine ⟨⟨str "b8:0",false⟩,by decide,?_⟩
      have hself : getIdFilename seatSystem.toKernel disk.device = some (str "b8:0") := by decide
      exact Option.some.inj (hself.symm.trans hid)
  decodable e t he htag := by
    obtain ⟨rfl,-⟩ := seat_tag he htag
    exact Or.inl ⟨Or.inl (by decide),fun ⟨bus,h⟩ => nomatch h⟩

/-- An enumeration of the devices with some tags. -/
def matchTags (tags : List CString) : Matches := { tagsMatchList := tags.map fun t => { name := t } }

theorem strategies_agree_seat : StrategiesAgree seatSystem (matchTags [str "seat"]) (fun _ n => n) ↔
    SameChoice seatSystem (matchTags [str "seat"]) twoDrivers :=
  strategies_agree_iff tree_seat consistent_seat fun _ h => nomatch h

/-- A device with one of two tags is added through the tag index, which tests no other tag. -/
theorem any_tag_added : Tree seatSystem twoDrivers ∧ Consistent seatSystem twoDrivers ∧
    ¬StrategiesAgree seatSystem (matchTags [str "seat",str "uaccess"]) fun _ n => n := by
  refine ⟨tree_seat,consistent_seat,fun h => ?_⟩
  have hdisk := h disk.syspath
  revert hdisk
  decide +kernel

end Seat

end ScanDevices
end Udev
