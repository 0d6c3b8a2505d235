import Udev.SysDevice

/-! The ids of the devices of a system. An id is read back by the links of sysfs; the name of
a driver is not enough to find its bus. -/
namespace Udev
namespace DeviceIds

open CString Text Decimal Device SysDevice

/-- Where a device is in sysfs: a device of a bus or of a class, with the name of its
subsystem; a module; the directory of a bus or of a class; a driver of a bus. -/
inductive Place
  | busDevice (subsystem : CString)
  | classDevice (subsystem : CString)
  | module
  | busDir
  | classDir
  | driver (bus : CString)
  deriving DecidableEq

structure Entry where
  place : Place
  name : CString
  /-- The directory below `/sys/devices` in which a device is. -/
  parent : CString := []
  deriving DecidableEq

def Name (n : CString) : Prop := n ≠ [] ∧ n ≠ str "." ∧ n ≠ str ".." ∧ chr '/' ∉ n ∧ n.length ≤ 255

instance (n : CString) : Decidable (Name n) := inferInstanceAs (Decidable (_ ∧ _))

def busPath (subsystem name : CString) : CString := str "/sys/bus/" ++ subsystem ++ str "/devices/" ++ name

def classPath (subsystem name : CString) : CString := str "/sys/class/" ++ subsystem ++ str "/" ++ name

def driverPath (bus name : CString) : CString := str "/sys/bus/" ++ bus ++ str "/drivers/" ++ name

namespace Entry

def syspath (e : Entry) : CString :=
  match e.place with
  | .busDevice _ | .classDevice _ => str "/sys/devices/" ++ e.parent ++ str "/" ++ e.name
  | .module => str "/sys/module/" ++ e.name
  | .busDir => str "/sys/bus/" ++ e.name
  | .classDir => str "/sys/class/" ++ e.name
  | .driver bus => driverPath bus e.name

/-- The subsystem link, and the names that are implicit. -/
def subsystem (e : Entry) : CString :=
  match e.place with
  | .busDevice subsystem | .classDevice subsystem => subsystem
  | .module => str "module"
  | .busDir | .classDir => str "subsystem"
  | .driver _ => str "drivers"

/-- A device below `/sys/devices`. -/
def IsDevice (e : Entry) : Prop := (∃ s, e.place = .busDevice s) ∨ ∃ s, e.place = .classDevice s

def IsDriver (e : Entry) : Prop := ∃ bus, e.place = .driver bus

/-- The device object of `udev_device_new_from_syspath`. -/
def device (e : Entry) : Device := Device.setSyspath {} e.syspath

end Entry

/-- A link from a directory some levels below `/sys`. -/
def link (level : ℕ) (syspath : CString) : CString := (List.replicate level (str "../")).flatten ++ syspath.drop 5

def numberPath (block : Bool) (devnum : UInt64) : CString :=
  str "/sys/dev/" ++ (if block then str "block" else str "char") ++ str "/" ++ Symlinks.unsigned (major devnum) ++
    str ":" ++ Symlinks.unsigned (minor devnum)

structure Layout (k : Kernel) (S : Entry → Prop) : Prop where
  name : ∀ e, S e → Name e.name
  subsystem : ∀ e, S e → Name e.subsystem
  bus : ∀ e b, S e → e.place = .driver b → Name b
  /-- The paths fit the buffers of the device objects. -/
  short : ∀ e, S e → e.parent.length+e.name.length ≤ 999
  distinct : ∀ e e', S e → S e' → e.syspath = e'.syspath → e = e'
  uevent : ∀ e, S e → e.IsDevice → k.stat (e.syspath ++ str "/uevent") = true
  subsystemLink : ∀ e, S e → e.IsDevice →
    ∃ dir, k.readlink (e.syspath ++ str "/subsystem") = some (dir ++ chr '/'::e.subsystem) ∧ dir.length ≤ 700
  directory : ∀ e, S e → ¬e.IsDevice → k.stat e.syspath = true ∧ k.isDir e.syspath = true ∧
    k.readlink (e.syspath ++ str "/subsystem") = none
  /-- Modules, buses, classes and drivers are directories. -/
  moduleDir : ∀ n, chr '/' ∉ n → k.readlink (str "/sys/module/" ++ n) = none
  busDir : ∀ n, chr '/' ∉ n → k.readlink (str "/sys/bus/" ++ n) = none
  classDir : ∀ n, chr '/' ∉ n → k.readlink (str "/sys/class/" ++ n) = none
  driverDir : ∀ bus n, chr '/' ∉ bus → chr '/' ∉ n → k.readlink (driverPath bus n) = none
  busLink : ∀ e s, S e → e.place = .busDevice s →
    k.stat (busPath s e.name) = true ∧ k.readlink (busPath s e.name) = some (link 3 e.syspath)
  classLink : ∀ e s, S e → e.place = .classDevice s →
    k.stat (classPath s e.name) = true ∧ k.readlink (classPath s e.name) = some (link 2 e.syspath)
  numberLink : ∀ e, S e → major (k.devnum e.syspath) > 0 → e.IsDevice ∧
    k.readlink (numberPath (e.subsystem = str "block") (k.devnum e.syspath)) = some (link 2 e.syspath)
  /-- What there is for a bus or a class is the link of a device, or no link, as an attribute of the class. -/
  busEntry : ∀ s n, chr '/' ∉ s → chr '/' ∉ n → k.stat (busPath s n) = true →
    (∃ e, S e ∧ e.place = .busDevice s ∧ e.name = n) ∨
      (¬∃ e, S e ∧ e.place = .classDevice s ∧ e.name = n) ∧ k.readlink (busPath s n) = none
  classEntry : ∀ s n, chr '/' ∉ s → chr '/' ∉ n → k.stat (classPath s n) = true →
    (∃ e, S e ∧ e.place = .classDevice s ∧ e.name = n) ∨ k.readlink (classPath s n) = none
  busDirEntry : ∀ n, Name n → k.stat (str "/sys/bus/" ++ n) = true → ∃ e, S e ∧ e.place = .busDir ∧ e.name = n
  noSubsystemDir : ∀ path, k.stat (str "/sys/subsystem/" ++ path) = false
  interface : ∀ e, S e → k.ifindex e.syspath > 0 →
    e.place = .classDevice (str "net") ∧ k.ifindex e.syspath < 2^31 ∧ k.ifname (k.ifindex e.syspath) = some e.name

/-- The ids that the links of sysfs lead back from: those with a number, and those with a
name that is that of one directory entry. -/
def Decodable (k : Kernel) (S : Entry → Prop) (e : Entry) : Prop :=
  major (k.devnum e.syspath) > 0 ∨
    match e.place with
    | .busDevice s => Plain s
    | .classDevice s => (k.ifindex e.syspath > 0 ∨ Plain s) ∧ ¬∃ e', S e' ∧ e'.place = .busDevice s ∧ e'.name = e.name
    | .module => True
    | .busDir => True
    | .classDir => ¬∃ e', S e' ∧ e'.place = .busDir ∧ e'.name = e.name
    | .driver _ => False
where
  /-- A subsystem that the id shows as it is. -/
  Plain (s : CString) : Prop := chr ':' ∉ s ∧ s ≠ str "subsystem" ∧ s ≠ str "module" ∧ s ≠ str "drivers"

section Paths

variable {k : Kernel} {base c : CString}

theorem lastPart_append (base : CString) (hc : chr '/' ∉ c) : lastPart (base ++ chr '/'::c) = c := by
  have htake : ∀ x ∈ c.reverse, decide (x ≠ chr '/') = true := by
    intro x hx
    simp only [decide_eq_true_eq]
    rintro rfl
    exact hc (List.mem_reverse.mp hx)
  rw [lastPart,List.reverse_append,List.reverse_cons,List.append_assoc,List.takeWhile_append_of_pos htake]
  simp

theorem cutLast_append (base : CString) (hc : chr '/' ∉ c) : cutLast (base ++ chr '/'::c) = some base := by
  have hdrop : ∀ x ∈ c.reverse, decide (x ≠ chr '/') = true := by
    intro x hx
    simp only [decide_eq_true_eq]
    rintro rfl
    exact hc (List.mem_reverse.mp hx)
  rw [cutLast,if_pos (by simp),List.reverse_append,List.reverse_cons,List.append_assoc,
    List.dropWhile_append_of_pos hdrop]
  simp

theorem countBack_link (level : ℕ) (path : CString) : countBack (link level (str "/sys/devices/" ++ path)) = level := by
  induction level with
  | zero => rfl
  | succ level ih =>
    have hlink : link (level+1) (str "/sys/devices/" ++ path) =
        str "../" ++ link level (str "/sys/devices/" ++ path) := by
      simp [link,List.replicate_succ]
    rw [hlink]
    exact congrArg Nat.succ ih

theorem length_back (level : ℕ) : (List.replicate level (str "../")).flatten.length = level*3 := by
  induction level with
  | zero => rfl
  | succ level ih =>
    rw [List.replicate_succ,List.flatten_cons,List.length_append,ih]
    have h3 : (str "../").length = 3 := rfl
    omega

theorem drop_link (level : ℕ) (path : CString) : (link level path).drop (level*3) = path.drop 5 := by
  rw [link,← length_back level,List.drop_left]

/-- A link in a directory some levels below `/sys` leads to the device. -/
theorem resolve_link {level : ℕ} {p path : CString}
    (hread : k.readlink p = some (link level (str "/sys/devices/" ++ path)))
    (hcut : cutBack (level+1) p = .inr (str "/sys")) (hlevel : level ≤ 3) (hlen : path.length ≤ 1003) :
    utilResolveSysLink k p utilPathSize = str "/sys/devices/" ++ path := by
  have hlink : (link level (str "/sys/devices/" ++ path)).length = level*3+8+path.length := by
    rw [link,List.length_append,length_back,List.length_drop,List.length_append]
    have h13 : (str "/sys/devices/").length = 13 := rfl
    omega
  have hsize : utilPathSize = 1024 := rfl
  have hreadLink : readLink k p = some (link level (str "/sys/devices/" ++ path)) := by
    rw [readLink,hread,Option.bind_some,if_neg (by omega)]
  have hfit : (str "/" ++ (str "/sys/devices/" ++ path).drop 5).length < utilPathSize-(str "/sys").length := by
    have hrest : (str "/" ++ (str "/sys/devices/" ++ path).drop 5).length = 9+path.length := by
      simp [str]
      omega
    have h4 : (str "/sys").length = 4 := rfl
    omega
  simp only [utilResolveSysLink,hreadLink,countBack_link,hcut,drop_link]
  rw [strscpyl_fits (by simpa using hfit)]
  simp [str]

@[simp] theorem setSyspath_syspath (d : Device) (path : CString) : (Device.setSyspath d path).syspath = path := rfl

theorem newFromSyspath_some {p : CString} {dev : Device} (h : newFromSyspath k p = some dev) :
    dev.syspath = utilResolveSysLink k (strscpy utilPathSize p) utilPathSize := by
  unfold newFromSyspath at h
  simp only at h
  split_ifs at h <;> obtain rfl := Option.some.inj h <;> rfl

theorem newFromSyspath_eq {p dir target : CString} (hp : p = str "/sys/" ++ dir ++ chr '/'::c) (hdir : dir ≠ [])
    (hne : c ≠ []) (hc : chr '/' ∉ c) (hlen : p.length < utilPathSize) (hres : utilResolveSysLink k p utilPathSize = target) :
    newFromSyspath k p =
      if (if startswith (target.drop 4) (str "/devices/") then k.stat (strscpyl utilPathSize [target,str "/uevent"])
        else k.stat target && k.isDir target) then some (Device.setSyspath {} target) else none := by
  have hsub : p.drop 4 = (chr '/'::dir) ++ chr '/'::c := by rw [hp]; rfl
  have hlast : lastPart (p.drop 4) = c := by rw [hsub,lastPart_append _ hc]
  have hslash : chr '/' ∈ p.drop 4 := by rw [hsub]; simp
  have hpos : ¬(p.drop 4).length-c.length-1 < 2 := by
    have hdirlen := List.length_pos_iff.mpr hdir
    rw [hsub,List.length_append,List.length_cons,List.length_cons]
    omega
  have hsys : startswith p (str "/sys") = true := by
    rw [hp]
    rfl
  unfold newFromSyspath
  simp only [hlast,hslash,hsys,hne,hpos,strscpy_fits hlen,hres,not_true,or_self,if_false]

theorem cutBack_bus {s n : CString} (hs : chr '/' ∉ s) (hn : chr '/' ∉ n) :
    cutBack 4 (busPath s n) = .inr (str "/sys") := by
  have hpath : busPath s n = (((str "/sys" ++ chr '/'::str "bus") ++ chr '/'::s) ++ chr '/'::str "devices") ++ chr '/'::n := by
    simp [busPath,str,chr]
  have h₁ : chr '/' ∉ str "devices" := by decide
  have h₂ : chr '/' ∉ str "bus" := by decide
  simp only [hpath,cutBack,cutLast_append _ hn,cutLast_append _ h₁,cutLast_append _ hs,cutLast_append _ h₂]

theorem cutBack_class {s n : CString} (hs : chr '/' ∉ s) (hn : chr '/' ∉ n) :
    cutBack 3 (classPath s n) = .inr (str "/sys") := by
  have hpath : classPath s n = ((str "/sys" ++ chr '/'::str "class") ++ chr '/'::s) ++ chr '/'::n := by
    simp [classPath,str,chr]
  have h₂ : chr '/' ∉ str "class" := by decide
  simp only [hpath,cutBack,cutLast_append _ hn,cutLast_append _ hs,cutLast_append _ h₂]

theorem resolve_directory {p : CString} (h : k.readlink p = none) (size : ℕ) : utilResolveSysLink k p size = p := by
  have hread : readLink k p = none := by rw [readLink,h,Option.bind_none]
  rw [utilResolveSysLink,hread]

theorem newFromSyspath_attribute {p dir : CString} (hp : p = str "/sys/" ++ dir ++ chr '/'::c) (hdir : dir ≠ [])
    (hne : c ≠ []) (hc : chr '/' ∉ c) (hlen : p.length < utilPathSize) (hplace : ¬str "devices/" <+: dir ++ chr '/'::c)
    (hread : k.readlink p = none) (hisDir : k.isDir p = false) : newFromSyspath k p = none := by
  have hdevices : ¬startswith (p.drop 4) (str "/devices/") = true := by
    intro h
    rw [hp] at h
    have hcons : str "/devices/" <+: chr '/'::(dir ++ chr '/'::c) := by
      simpa [str,chr] using List.isPrefixOf_iff_prefix.mp h
    exact hplace (List.cons_prefix_cons.mp hcons).2
  rw [newFromSyspath_eq hp hdir hne hc hlen (resolve_directory hread _),if_neg hdevices,hisDir,Bool.and_false]
  rfl

theorem findPath_cons (p : CString) (ps : List CString) :
    findPath k (p::ps) = if k.stat p then newFromSyspath k p else findPath k ps := by
  unfold findPath
  cases hp : k.stat p with
  | true => simp [hp]
  | false => simp [hp]

end Paths

section Entries

variable {k : Kernel} {S : Entry → Prop} (L : Layout k S) {e : Entry} (he : S e)

theorem Entry.IsDevice.syspath (hdev : e.IsDevice) : e.syspath = str "/sys/devices/" ++ (e.parent ++ chr '/'::e.name) := by
  rcases hdev with ⟨s,hs⟩ | ⟨s,hs⟩ <;> simp [Entry.syspath,hs,str,chr]

include L he

theorem found_link (hdev : e.IsDevice) {p dir c : CString} {level : ℕ} (hp : p = str "/sys/" ++ dir ++ chr '/'::c)
    (hdir : dir ≠ []) (hne : c ≠ []) (hc : chr '/' ∉ c) (hlen : p.length < utilPathSize)
    (hread : k.readlink p = some (link level e.syspath)) (hcut : cutBack (level+1) p = .inr (str "/sys"))
    (hlevel : level ≤ 3) : newFromSyspath k p = some e.device := by
  have hshort := L.short e he
  have hsize : utilPathSize = 1024 := rfl
  have hpath := hdev.syspath
  have hpathlen : (e.parent ++ chr '/'::e.name).length ≤ 1003 := by
    rw [List.length_append,List.length_cons]
    omega
  have hres : utilResolveSysLink k p utilPathSize = e.syspath := by
    rw [hpath] at hread ⊢
    exact resolve_link hread hcut hlevel hpathlen
  have huevent : strscpyl utilPathSize [e.syspath,str "/uevent"] = e.syspath ++ str "/uevent" := by
    rw [strscpyl_fits]
    · simp
    · have h13 : (str "/sys/devices/").length = 13 := rfl
      have h7 : (str "/uevent").length = 7 := rfl
      simp only [List.flatten_cons,List.flatten_nil,List.append_nil,List.length_append,hpath] at hpathlen ⊢
      omega
  have hdevices : startswith (e.syspath.drop 4) (str "/devices/") = true := by
    rw [hpath]
    rfl
  rw [newFromSyspath_eq hp hdir hne hc hlen hres,if_pos hdevices,huevent,if_pos (L.uevent e he hdev)]
  rfl

theorem found_bus {s : CString} (hs : e.place = .busDevice s) : newFromSyspath k (busPath s e.name) = some e.device := by
  have hsub : Name s := by
    have hname := L.subsystem e he
    rwa [Entry.subsystem,hs] at hname
  have hname := L.name e he
  have hlen : (busPath s e.name).length < utilPathSize := by
    have h9 : (str "/sys/bus/").length = 9 := rfl
    have h9' : (str "/devices/").length = 9 := rfl
    have hsize : utilPathSize = 1024 := rfl
    have h₁ := hsub.2.2.2.2
    have h₂ := hname.2.2.2.2
    simp only [busPath,List.length_append]
    omega
  have hp : busPath s e.name = str "/sys/" ++ (str "bus/" ++ s ++ str "/devices") ++ chr '/'::e.name := by
    simp [busPath,str,chr]
  exact found_link L he (Or.inl ⟨s,hs⟩) hp (by simp [str]) hname.1 hname.2.2.2.1 hlen (L.busLink e s he hs).2
    (cutBack_bus hsub.2.2.2.1 hname.2.2.2.1) (by decide)

theorem found_class {s : CString} (hs : e.place = .classDevice s) : newFromSyspath k (classPath s e.name) = some e.device := by
  have hsub : Name s := by
    have hname := L.subsystem e he
    rwa [Entry.subsystem,hs] at hname
  have hname := L.name e he
  have hlen : (classPath s e.name).length < utilPathSize := by
    have h9 : (str "/sys/class/").length = 11 := rfl
    have h9' : (str "/").length = 1 := rfl
    have hsize : utilPathSize = 1024 := rfl
    have h₁ := hsub.2.2.2.2
    have h₂ := hname.2.2.2.2
    simp only [classPath,List.length_append]
    omega
  have hp : classPath s e.name = str "/sys/" ++ (str "class/" ++ s) ++ chr '/'::e.name := by
    simp [classPath,str,chr]
  exact found_link L he (Or.inr ⟨s,hs⟩) hp (by simp [str]) hname.1 hname.2.2.2.1 hlen (L.classLink e s he hs).2
    (cutBack_class hsub.2.2.2.1 hname.2.2.2.1) (by decide)

theorem found_directory (hdev : ¬e.IsDevice) {dir c : CString} (hp : e.syspath = str "/sys/" ++ dir ++ chr '/'::c)
    (hdir : dir ≠ []) (hne : c ≠ []) (hc : chr '/' ∉ c) (hlen : e.syspath.length < utilPathSize)
    (hread : k.readlink e.syspath = none) (hplace : ¬str "devices/" <+: dir ++ chr '/'::c) :
    newFromSyspath k e.syspath = some e.device := by
  obtain ⟨hstat,hisDir,-⟩ := L.directory e he hdev
  have hdevices : ¬startswith (e.syspath.drop 4) (str "/devices/") = true := by
    intro h
    rw [hp] at h
    have hcons : str "/devices/" <+: chr '/'::(dir ++ chr '/'::c) := by
      simpa [str,chr] using List.isPrefixOf_iff_prefix.mp h
    exact hplace (List.cons_prefix_cons.mp hcons).2
  rw [newFromSyspath_eq hp hdir hne hc hlen (resolve_directory hread _),if_neg hdevices,hstat,hisDir]
  rfl

end Entries

section Numbers

variable {c : UInt8} {n : ℕ}

theorem head_decimalDigits {fuel : ℕ} (hn : 0 < n) (h : n < 10^fuel) :
    ∃ d rest, decimalDigits fuel n = d::rest ∧ d ≠ chr '0' := by
  induction fuel generalizing n with
  | zero => omega
  | succ fuel ih =>
    rw [decimalDigits]
    split_ifs with hlt
    · refine ⟨_,[],rfl,?_⟩
      have hdigits : ∀ d < 10, 0 < d → UInt8.ofNat ((chr '0').toNat+d%10) ≠ chr '0' := by decide
      exact hdigits n hlt hn
    · rw [pow_succ] at h
      obtain ⟨d,rest,heq,hd⟩ := @ih (n/10) (by omega) (by omega)
      exact ⟨d,rest ++ _,by rw [heq]; rfl,hd⟩

theorem digits_end {t : CString} (ht : t = [] ∨ ∃ rest, t = chr ':'::rest) {base : ℕ} (hbase : base ≤ 10) (acc : ℕ) :
    digits base acc t = (acc,t) := by
  rcases ht with rfl | ⟨rest,rfl⟩
  · rfl
  · have h58 : (chr ':').toNat = 58 := rfl
    have h48 : (chr '0').toNat = 48 := rfl
    rw [digits,if_neg]
    rintro ⟨-,h⟩
    omega

theorem scanInt_printNat (hn : n < 2^32) {t : CString} (ht : t = [] ∨ ∃ rest, t = chr ':'::rest) :
    scanInt (printNat n ++ t) = some (UInt64.ofNat n,t) := by
  obtain ⟨c,s,hs⟩ := List.exists_cons_of_ne_nil (printNat_ne_nil n)
  have hc : IsDigit c := decimalDigits_isDigit 20 n c (by rw [← printNat,hs]; exact List.mem_cons_self)
  obtain ⟨hspace,hminus,hplus⟩ := hc.plain
  have hdrop : (printNat n ++ t).dropWhile isspace = printNat n ++ t := by
    rw [hs,List.cons_append,List.dropWhile_cons_of_neg (by simp [hspace])]
  have hhead : charAt (printNat n ++ t) 0 = c := by rw [hs]; rfl
  have hzero : ∀ d rest, printNat n = d::rest → d = chr '0' → n = 0 := by
    intro d rest hd hdzero
    by_contra hne
    obtain ⟨d',rest',hd',hne'⟩ := head_decimalDigits (Nat.pos_of_ne_zero hne) (by omega : n < 10^20)
    rw [printNat,hd'] at hd
    exact hne' ((List.cons.inj hd).1.trans hdzero)
  have hx : ∀ x, x = chr 'x' ∨ x = chr 'X' → ¬startswith (printNat n ++ t) [chr '0',x] = true := by
    intro x hx h
    have hpre := List.isPrefixOf_iff_prefix.mp h
    rw [hs,List.cons_append,List.cons_prefix_cons] at hpre
    obtain rfl := hzero c s hs hpre.1.symm
    obtain rfl : [] = s := (List.cons.inj (hs.symm.trans rfl : c::s = chr '0'::[])).2.symm
    rw [List.nil_append] at hpre
    rcases ht with rfl | ⟨rest,rfl⟩
    · simpa using hpre.2
    · have hcolon := (List.cons_prefix_cons.mp hpre.2).1
      rcases hx with rfl | rfl <;> exact absurd hcolon (by decide)
  have hhex : ¬(startswith (printNat n ++ t) (str "0x") = true ∨ startswith (printNat n ++ t) (str "0X") = true) :=
    fun h => h.elim (hx _ (Or.inl rfl)) (hx _ (Or.inr rfl))
  have hdigits : (if startswith (printNat n ++ t) (str "0") then digits 8 0 (printNat n ++ t)
      else digits 10 0 (printNat n ++ t)) = (n,t) := by
    rcases Nat.eq_zero_or_pos n with rfl | hpos
    · have hstart : startswith (printNat 0 ++ t) (str "0") = true := rfl
      rw [if_pos hstart]
      exact digits_end ht (by decide) 0
    · have hstart : ¬startswith (printNat n ++ t) (str "0") = true := by
        intro h
        have hpre := List.isPrefixOf_iff_prefix.mp h
        rw [hs] at hpre
        exact hpos.ne' (hzero c s hs (List.cons_prefix_cons.mp hpre).1.symm)
      rw [if_neg hstart,printNat,digits_append (decimalDigits_isDigit 20 n),foldl_decimalDigits (by omega)]
      exact digits_end ht (by decide) n
  have hlen : ¬t.length = (printNat n ++ t).length := by
    rw [hs,List.length_append,List.length_cons]
    omega
  have hvalue : ((min n (2^63-1) : ℕ) : ℤ) % 2^32 = (n : ℤ) := by omega
  unfold scanInt
  simp only [hdrop,hhead,hminus,hplus,or_self,if_false,if_neg hhex,hdigits,if_neg hlen]
  simp only [hvalue,Int.toNat_natCast]

theorem major_lt (x : UInt64) : (major x).toNat < 2^32 := by
  simp only [major,UInt64.toNat_or,UInt64.toNat_and]
  refine Nat.or_lt_two_pow ?_ ?_
  · exact Nat.and_lt_two_pow _ (by decide)
  · exact Nat.and_lt_two_pow _ (by decide)

theorem minor_lt (x : UInt64) : (minor x).toNat < 2^32 := by
  simp only [minor,UInt64.toNat_or,UInt64.toNat_and]
  refine Nat.or_lt_two_pow ?_ ?_
  · exact Nat.and_lt_two_pow _ (by decide)
  · exact Nat.and_lt_two_pow _ (by decide)

theorem scanInt_unsigned {x : UInt64} (hx : x.toNat < 2^32) {t : CString} (ht : t = [] ∨ ∃ rest, t = chr ':'::rest) :
    scanInt (Symlinks.unsigned x ++ t) = some (x,t) := by
  rw [Symlinks.unsigned_eq,scanInt_printNat hx ht,UInt64.ofNat_toNat]

end Numbers

section Decode

variable {k : Kernel} {S : Entry → Prop} (L : Layout k S) {e : Entry} (he : S e)

omit L he in
theorem no_drivers {n : CString} (hn : chr '/' ∉ n) (pre : CString) (hpre : pre = str "/bus/" ∨ pre = str "/class/") :
    strstr (pre ++ n) (str "/drivers/") = none := by
  rw [← Option.not_isSome_iff_eq_none,strstr_isSome]
  have hrest : ¬str "drivers/" <+: n := fun h => hn (h.subset (by decide))
  have hinside : ¬str "/drivers/" <:+: n := fun h => hn (h.subset (by decide))
  have hneedle : str "/drivers/" = chr '/'::str "drivers/" := rfl
  have hneedle' : str "drivers/" = chr 'd'::str "rivers/" := rfl
  rcases hpre with rfl | rfl
  · have hstart : str "/bus/" ++ n = chr '/'::chr 'b'::chr 'u'::chr 's'::chr '/'::n := rfl
    rw [hstart]
    simp only [List.infix_cons_iff,hinside,or_false]
    rw [hneedle]
    simp only [List.cons_prefix_cons,hrest,and_false,or_false]
    rw [hneedle']
    simp [List.cons_prefix_cons,chr]
  · have hstart : str "/class/" ++ n = chr '/'::chr 'c'::chr 'l'::chr 'a'::chr 's'::chr 's'::chr '/'::n := rfl
    rw [hstart]
    simp only [List.infix_cons_iff,hinside,or_false]
    rw [hneedle]
    simp only [List.cons_prefix_cons,hrest,and_false,or_false]
    rw [hneedle']
    simp [List.cons_prefix_cons,chr]

def numberId (block : Bool) (devnum : UInt64) : CString :=
  (if block then chr 'b' else chr 'c')::(Symlinks.unsigned (major devnum) ++ str ":" ++ Symlinks.unsigned (minor devnum))

theorem newFromDeviceId_number (block : Bool) (devnum : UInt64) :
    newFromDeviceId k (numberId block devnum) = newFromSyspath k (numberPath block devnum) := by
  have hmaj : scanInt (Symlinks.unsigned (major devnum) ++ str ":" ++ Symlinks.unsigned (minor devnum)) =
      some (major devnum,chr ':'::Symlinks.unsigned (minor devnum)) := by
    rw [List.append_assoc]
    exact scanInt_unsigned (major_lt devnum) (Or.inr ⟨_,rfl⟩)
  have hmin : scanInt (Symlinks.unsigned (minor devnum)) = some (minor devnum,[]) := by
    have h := scanInt_unsigned (minor_lt devnum) (Or.inl rfl)
    rwa [List.append_nil] at h
  have hcolon : charAt (chr ':'::Symlinks.unsigned (minor devnum)) 0 = chr ':' := rfl
  have hc : chr 'c' ≠ chr 'b' := by decide
  cases block with
  | true =>
    have htype : charAt (numberId true devnum) 0 = chr 'b' := rfl
    have hrest : (numberId true devnum).drop 1 = Symlinks.unsigned (major devnum) ++ str ":" ++ Symlinks.unsigned (minor devnum) := rfl
    simp only [newFromDeviceId,htype,hrest,hmaj,true_or,if_true,Option.bind_some,hcolon,List.drop_one,List.tail_cons,hmin,
      Device.makedev_major_minor,newFromDevnum,if_true]
    rfl
  | false =>
    have htype : charAt (numberId false devnum) 0 = chr 'c' := rfl
    have hrest : (numberId false devnum).drop 1 = Symlinks.unsigned (major devnum) ++ str ":" ++ Symlinks.unsigned (minor devnum) := rfl
    simp only [newFromDeviceId,htype,hrest,hmaj,or_true,if_true,Option.bind_some,hcolon,List.drop_one,List.tail_cons,hmin,
      Device.makedev_major_minor,newFromDevnum,hc,if_false]
    rfl

include L he

theorem decode_number (hmajor : major (k.devnum e.syspath) > 0) :
    newFromDeviceId k (numberId (e.subsystem = str "block") (k.devnum e.syspath)) = some e.device := by
  obtain ⟨hdev,hread⟩ := L.numberLink e he hmajor
  have hslash : chr '/' ∉ Symlinks.unsigned (major (k.devnum e.syspath)) ++ str ":" ++ Symlinks.unsigned (minor (k.devnum e.syspath)) := by
    simp only [List.mem_append,not_or]
    exact ⟨⟨Symlinks.notMem_unsigned not_isDigit_slash _,by decide⟩,Symlinks.notMem_unsigned not_isDigit_slash _⟩
  have hparts : ∀ block : Bool, ∃ type, chr '/' ∉ type ∧ type.length ≤ 5 ∧
      numberPath block (k.devnum e.syspath) = ((str "/sys" ++ chr '/'::str "dev") ++ chr '/'::type) ++
        chr '/'::(Symlinks.unsigned (major (k.devnum e.syspath)) ++ str ":" ++ Symlinks.unsigned (minor (k.devnum e.syspath))) := by
    intro block
    cases block with
    | true => exact ⟨str "block",by decide,by decide,by simp [numberPath,str,chr]⟩
    | false => exact ⟨str "char",by decide,by decide,by simp [numberPath,str,chr]⟩
  obtain ⟨type,htype,hlen,hpath⟩ := hparts (e.subsystem = str "block")
  have hdevslash : chr '/' ∉ str "dev" := by decide
  have hp : numberPath (e.subsystem = str "block") (k.devnum e.syspath) = str "/sys/" ++ (str "dev" ++ chr '/'::type) ++
      chr '/'::(Symlinks.unsigned (major (k.devnum e.syspath)) ++ str ":" ++ Symlinks.unsigned (minor (k.devnum e.syspath))) :=
    hpath.trans (by simp [str,chr])
  rw [newFromDeviceId_number]
  refine found_link L he hdev hp (by simp [str]) (by simp [str]) hslash ?_ hread ?_ (by decide)
  · have hmaj := Symlinks.unsigned_length (major (k.devnum e.syspath))
    have hmin := Symlinks.unsigned_length (minor (k.devnum e.syspath))
    have h4 : (str "/sys").length = 4 := rfl
    have h3 : (str "dev").length = 3 := rfl
    have h1 : (str ":").length = 1 := rfl
    have hsize : utilPathSize = 1024 := rfl
    rw [hpath]
    simp only [List.length_append,List.length_cons]
    omega
  · rw [hpath]
    simp only [cutBack,cutLast_append _ hslash,cutLast_append _ htype,cutLast_append _ hdevslash]

theorem syspath_length : e.syspath.length ≤ 1013 := by
  have hname := (L.name e he).2.2.2.2
  have hshort := L.short e he
  unfold Entry.syspath
  cases hplace : e.place with
  | busDevice s | classDevice s =>
    have h13 : (str "/sys/devices/").length = 13 := rfl
    have h1 : (str "/").length = 1 := rfl
    simp only [List.length_append]
    omega
  | module | busDir | classDir =>
    have h12 : (str "/sys/module/").length = 12 := rfl
    have h9 : (str "/sys/bus/").length = 9 := rfl
    have h11 : (str "/sys/class/").length = 11 := rfl
    simp only [List.length_append]
    omega
  | driver bus =>
    have hbus := (L.bus e bus he hplace).2.2.2.2
    have h9 : (str "/sys/bus/").length = 9 := rfl
    have h9' : (str "/drivers/").length = 9 := rfl
    simp only [driverPath,List.length_append]
    omega

theorem getSubsystem_eq : getSubsystem k e.device = some e.subsystem := by
  have hname := L.name e he
  have hsub := L.subsystem e he
  have hsize : utilPathSize = 1024 := rfl
  have hlen := syspath_length L he
  have hpath : strscpyl utilPathSize [e.syspath,str "/",str "subsystem"] = e.syspath ++ str "/subsystem" := by
    rw [strscpyl_fits]
    · simp [str]
    · have h1 : (str "/").length = 1 := rfl
      have h9 : (str "subsystem").length = 9 := rfl
      simp only [List.flatten_cons,List.flatten_nil,List.append_nil,List.length_append]
      omega
  have hlink : utilGetSysCoreLinkValue k (str "subsystem") e.device.syspath utilNameSize =
      (readLink k (e.syspath ++ str "/subsystem")).bind fun target =>
        if chr '/' ∈ target ∧ (lastPart target).length < utilNameSize then some (lastPart target) else none := by
    rw [← hpath]
    rfl
  rw [getSubsystem,hlink]
  by_cases hdev : e.IsDevice
  · obtain ⟨dir,hread,hdir⟩ := L.subsystemLink e he hdev
    have h255 := hsub.2.2.2.2
    have h512 : utilNameSize = 512 := rfl
    have hreadLink : readLink k (e.syspath ++ str "/subsystem") = some (dir ++ chr '/'::e.subsystem) := by
      rw [readLink,hread,Option.bind_some,if_neg]
      simp only [List.length_append,List.length_cons]
      omega
    rw [hreadLink,Option.bind_some,lastPart_append _ hsub.2.2.2.1,if_pos ⟨by simp,by omega⟩]
  · have hnone : readLink k (e.syspath ++ str "/subsystem") = none := by
      rw [readLink,(L.directory e he hdev).2.2,Option.bind_none]
    have hdevpath : e.device.devpath = e.syspath.drop 4 := rfl
    rw [hnone,Option.bind_none,hdevpath]
    unfold Entry.syspath Entry.subsystem
    cases hplace : e.place with
    | busDevice s => exact absurd (Or.inl ⟨s,hplace⟩) hdev
    | classDevice s => exact absurd (Or.inr ⟨s,hplace⟩) hdev
    | module => rfl
    | busDir =>
      have hdrop : (str "/sys/bus/" ++ e.name).drop 4 = str "/bus/" ++ e.name := rfl
      simp only [hdrop,no_drivers hname.2.2.2.1 _ (Or.inl rfl)]
      rfl
    | classDir =>
      have hdrop : (str "/sys/class/" ++ e.name).drop 4 = str "/class/" ++ e.name := rfl
      simp only [hdrop,no_drivers hname.2.2.2.1 _ (Or.inr rfl)]
      rfl
    | driver bus =>
      have hdrop : (driverPath bus e.name).drop 4 = str "/bus/" ++ bus ++ str "/drivers/" ++ e.name := rfl
      have hin : (strstr (str "/bus/" ++ bus ++ str "/drivers/" ++ e.name) (str "/drivers/")).isSome = true :=
        strstr_isSome.mpr ⟨str "/bus/" ++ bus,e.name,rfl⟩
      simp only [hdrop,hin]
      rfl

omit L he in
theorem concat_eq {parts : List CString} {p : CString} (hp : parts.flatten = p) (hlen : p.length < utilPathSize) :
    strscpyl utilPathSize parts = p := by
  rw [strscpyl_fits (hp ▸ hlen),hp]

omit he in
theorem lookup_plain {s n : CString} (hs : s ≠ str "subsystem" ∧ s ≠ str "module" ∧ s ≠ str "drivers")
    (hlen : s.length+n.length ≤ 900) :
    newFromSubsystemSysname k s n =
      if k.stat (busPath s n) then newFromSyspath k (busPath s n)
      else if k.stat (classPath s n) then newFromSyspath k (classPath s n) else none := by
  have hsize : utilPathSize = 1024 := rfl
  have h15 : (str "/sys/subsystem/").length = 15 := rfl
  have h11 : (str "/sys/class/").length = 11 := rfl
  have h9 : (str "/sys/bus/").length = 9 := rfl
  have h9' : (str "/devices/").length = 9 := rfl
  have h1 : (str "/").length = 1 := rfl
  have hsubsystem : strscpyl utilPathSize [str "/sys/subsystem/",s,str "/devices/",n] =
      str "/sys/subsystem/" ++ (s ++ str "/devices/" ++ n) :=
    concat_eq (by simp) (by simp only [List.length_append]; omega)
  have hbus : strscpyl utilPathSize [str "/sys/bus/",s,str "/devices/",n] = busPath s n :=
    concat_eq (by simp [busPath]) (by simp only [busPath,List.length_append]; omega)
  have hclass : strscpyl utilPathSize [str "/sys/class/",s,str "/",n] = classPath s n :=
    concat_eq (by simp [classPath]) (by simp only [classPath,List.length_append]; omega)
  have hnil : findPath k [] = none := rfl
  unfold newFromSubsystemSysname
  simp only [if_neg hs.1,if_neg hs.2.1,if_neg hs.2.2,hsubsystem,hbus,hclass,findPath_cons,hnil,L.noSubsystemDir,
    Bool.false_eq_true,if_false]

omit he in
theorem lookup_subsystem {n : CString} (hlen : n.length ≤ 900) :
    newFromSubsystemSysname k (str "subsystem") n =
      if k.stat (str "/sys/bus/" ++ n) then newFromSyspath k (str "/sys/bus/" ++ n)
      else if k.stat (str "/sys/class/" ++ n) then newFromSyspath k (str "/sys/class/" ++ n) else none := by
  have hsize : utilPathSize = 1024 := rfl
  have h15 : (str "/sys/subsystem/").length = 15 := rfl
  have h11 : (str "/sys/class/").length = 11 := rfl
  have h9 : (str "/sys/bus/").length = 9 := rfl
  have hsubsystem : strscpyl utilPathSize [str "/sys/subsystem/",n] = str "/sys/subsystem/" ++ n :=
    concat_eq (by simp) (by simp only [List.length_append]; omega)
  have hbus : strscpyl utilPathSize [str "/sys/bus/",n] = str "/sys/bus/" ++ n :=
    concat_eq (by simp) (by simp only [List.length_append]; omega)
  have hclass : strscpyl utilPathSize [str "/sys/class/",n] = str "/sys/class/" ++ n :=
    concat_eq (by simp) (by simp only [List.length_append]; omega)
  have hnil : findPath k [] = none := rfl
  unfold newFromSubsystemSysname
  simp only [if_true,hsubsystem,hbus,hclass,findPath_cons,hnil,L.noSubsystemDir,Bool.false_eq_true,if_false]

omit L he in
theorem lookup_module {n : CString} (hlen : n.length ≤ 900) :
    newFromSubsystemSysname k (str "module") n =
      if k.stat (str "/sys/module/" ++ n) then newFromSyspath k (str "/sys/module/" ++ n) else none := by
  have hsize : utilPathSize = 1024 := rfl
  have h12 : (str "/sys/module/").length = 12 := rfl
  have hpath : strscpyl utilPathSize [str "/sys/module/",n] = str "/sys/module/" ++ n :=
    concat_eq (by simp) (by simp only [List.length_append]; omega)
  have hne : str "module" ≠ str "subsystem" := by decide
  have hnil : findPath k [] = none := rfl
  unfold newFromSubsystemSysname
  simp only [if_neg hne,if_true,hpath,findPath_cons,hnil]

omit he in
theorem lookup_drivers {n : CString} (hlen : n.length < 512) :
    if chr ':' ∈ n then
      ∃ bus name, n = bus ++ chr ':'::name ∧ newFromSubsystemSysname k (str "drivers") n =
        if k.stat (driverPath bus name) then newFromSyspath k (driverPath bus name) else none
    else newFromSubsystemSysname k (str "drivers") n = none := by
  have hsize : utilPathSize = 1024 := rfl
  have h15 : (str "/sys/subsystem/").length = 15 := rfl
  have h9 : (str "/sys/bus/").length = 9 := rfl
  have h9' : (str "/drivers/").length = 9 := rfl
  have hne : str "drivers" ≠ str "subsystem" := by decide
  have hne' : str "drivers" ≠ str "module" := by decide
  have hnil : findPath k [] = none := rfl
  have hcopy : strscpy utilNameSize n = n := strscpy_fits hlen
  have hunfold : newFromSubsystemSysname k (str "drivers") n = (strchr n (chr ':')).bind fun driver =>
      findPath k [strscpyl utilPathSize [str "/sys/subsystem/",n.takeWhile (· ≠ chr ':'),str "/drivers/",driver.drop 1],
        strscpyl utilPathSize [str "/sys/bus/",n.takeWhile (· ≠ chr ':'),str "/drivers/",driver.drop 1]] := by
    unfold newFromSubsystemSysname
    simp only [if_neg hne,if_neg hne',if_true,hcopy]
  split_ifs with hcolon
  · obtain ⟨bus,name,rfl,hbus⟩ := List.eq_append_cons_of_mem hcolon
    rw [List.length_append,List.length_cons] at hlen
    have hsubsystem : strscpyl utilPathSize [str "/sys/subsystem/",bus,str "/drivers/",name] =
        str "/sys/subsystem/" ++ (bus ++ str "/drivers/" ++ name) :=
      concat_eq (by simp) (by simp only [List.length_append]; omega)
    have hpath : strscpyl utilPathSize [str "/sys/bus/",bus,str "/drivers/",name] = driverPath bus name :=
      concat_eq (by simp [driverPath]) (by simp only [driverPath,List.length_append]; omega)
    refine ⟨bus,name,rfl,?_⟩
    rw [hunfold,strchr_append hbus,Option.bind_some,takeWhile_ne hbus]
    simp only [List.drop_one,List.tail_cons,hsubsystem,hpath,findPath_cons,hnil,L.noSubsystemDir,Bool.false_eq_true,
      if_false]
  · rw [hunfold,strchr_eq_none hcolon,Option.bind_none]

theorem lookup_name (hdev : e.IsDevice) {s n : CString} (hs : chr '/' ∉ s) (hn : chr '/' ∉ n)
    (hlen : s.length+n.length ≤ 510) {dev : Device} (h : newFromSubsystemSysname k s n = some dev)
    (hpath : dev.syspath = e.syspath) : n = e.name ∧ s ≠ str "subsystem" ∧ s ≠ str "module" ∧ s ≠ str "drivers" := by
  have hsize : utilPathSize = 1024 := rfl
  have hdir : ∀ p, p.length < utilPathSize → k.readlink p = none → ¬str "/sys/devices/" <+: p →
      newFromSyspath k p ≠ some dev := by
    intro p hp hread hpre hfound
    have hsys := newFromSyspath_some hfound
    rw [strscpy_fits hp,resolve_directory hread,hpath,hdev.syspath] at hsys
    exact hpre ⟨_,hsys⟩
  have hsame : ∀ e', S e' → e'.name = n → e'.device = dev → n = e.name := by
    rintro e' he' rfl rfl
    rw [L.distinct e' e he' he hpath]
  have h15 : (str "/sys/subsystem/").length = 15 := rfl
  have h12 : (str "/sys/module/").length = 12 := rfl
  have h11 : (str "/sys/class/").length = 11 := rfl
  have h9 : (str "/sys/bus/").length = 9 := rfl
  have h9' : (str "/drivers/").length = 9 := rfl
  have h9'' : (str "/devices/").length = 9 := rfl
  have h1 : (str "/").length = 1 := rfl
  have hbusPre : ∀ x, ¬str "/sys/devices/" <+: str "/sys/bus/" ++ x := fun x => by simp [str,List.cons_prefix_cons]
  have hclassPre : ∀ x, ¬str "/sys/devices/" <+: str "/sys/class/" ++ x := fun x => by simp [str,List.cons_prefix_cons]
  have hmodulePre : ∀ x, ¬str "/sys/devices/" <+: str "/sys/module/" ++ x := fun x => by simp [str,List.cons_prefix_cons]
  by_cases hsubsystem : s = str "subsystem"
  · rw [hsubsystem,lookup_subsystem L (by omega)] at h
    split_ifs at h
    · exact absurd h (hdir _ (by rw [List.length_append]; omega) (L.busDir n hn) (hbusPre n))
    · exact absurd h (hdir _ (by rw [List.length_append]; omega) (L.classDir n hn) (hclassPre n))
  by_cases hmodule : s = str "module"
  · rw [hmodule,lookup_module (by omega)] at h
    split_ifs at h
    exact absurd h (hdir _ (by rw [List.length_append]; omega) (L.moduleDir n hn) (hmodulePre n))
  by_cases hdrivers : s = str "drivers"
  · have hlookup := @lookup_drivers k S L n (by omega)
    split_ifs at hlookup with hcolon
    · obtain ⟨bus,name,rfl,hlookup⟩ := hlookup
      rw [hdrivers,hlookup] at h
      split_ifs at h
      simp only [List.mem_append,List.mem_cons,not_or] at hn
      rw [List.length_append,List.length_cons] at hlen
      have hlong : (driverPath bus name).length < utilPathSize := by
        simp only [driverPath,List.length_append]
        omega
      refine absurd h (hdir _ hlong (L.driverDir bus name hn.1 hn.2.2) ?_)
      rw [driverPath,List.append_assoc,List.append_assoc]
      exact hbusPre _
    · rw [hdrivers,hlookup] at h
      cases h
  refine ⟨?_,hsubsystem,hmodule,hdrivers⟩
  rw [lookup_plain L ⟨hsubsystem,hmodule,hdrivers⟩ (by omega)] at h
  split_ifs at h with hbus hclass
  · rcases L.busEntry s n hs hn hbus with ⟨e',he',hplace,rfl⟩ | ⟨-,hread⟩
    · rw [found_bus L he' hplace] at h
      exact hsame e' he' rfl (Option.some.inj h)
    · refine absurd h (hdir _ (by simp only [busPath,List.length_append]; omega) hread ?_)
      rw [busPath,List.append_assoc,List.append_assoc]
      exact hbusPre _
  · rcases L.classEntry s n hs hn hclass with ⟨e',he',hplace,rfl⟩ | hread
    · rw [found_class L he' hplace] at h
      exact hsame e' he' rfl (Option.some.inj h)
    · refine absurd h (hdir _ (by simp only [classPath,List.length_append]; omega) hread ?_)
      rw [classPath,List.append_assoc,List.append_assoc]
      exact hclassPre _

theorem found_self (hdev : ¬e.IsDevice) : newFromSyspath k e.syspath = some e.device := by
  have hname := L.name e he
  have hlen : e.syspath.length < utilPathSize := Nat.lt_of_le_of_lt (syspath_length L he) (by decide)
  cases hplace : e.place with
  | busDevice s => exact absurd (Or.inl ⟨s,hplace⟩) hdev
  | classDevice s => exact absurd (Or.inr ⟨s,hplace⟩) hdev
  | module =>
    have hpath : e.syspath = str "/sys/module/" ++ e.name := by simp [Entry.syspath,hplace]
    refine found_directory L he hdev (hpath.trans (by simp [str,chr])) (by simp [str]) hname.1 hname.2.2.2.1 hlen
      (hpath ▸ L.moduleDir _ hname.2.2.2.1) (?_ : ¬_ <+: str "module" ++ _)
    simp [str,List.cons_prefix_cons]
  | busDir =>
    have hpath : e.syspath = str "/sys/bus/" ++ e.name := by simp [Entry.syspath,hplace]
    refine found_directory L he hdev (hpath.trans (by simp [str,chr])) (by simp [str]) hname.1 hname.2.2.2.1 hlen
      (hpath ▸ L.busDir _ hname.2.2.2.1) (?_ : ¬_ <+: str "bus" ++ _)
    simp [str,List.cons_prefix_cons]
  | classDir =>
    have hpath : e.syspath = str "/sys/class/" ++ e.name := by simp [Entry.syspath,hplace]
    refine found_directory L he hdev (hpath.trans (by simp [str,chr])) (by simp [str]) hname.1 hname.2.2.2.1 hlen
      (hpath ▸ L.classDir _ hname.2.2.2.1) (?_ : ¬_ <+: str "class" ++ _)
    simp [str,List.cons_prefix_cons]
  | driver bus =>
    have hpath : e.syspath = driverPath bus e.name := by simp [Entry.syspath,hplace]
    refine found_directory L he hdev (hpath.trans (by simp [driverPath,str,chr])) (by simp [str]) hname.1
      hname.2.2.2.1 hlen (hpath ▸ L.driverDir bus _ (L.bus e bus he hplace).2.2.2.1 hname.2.2.2.1)
      (?_ : ¬_ <+: (str "bus/" ++ bus ++ str "/drivers") ++ _)
    simp [str,List.cons_prefix_cons]

theorem lastPart_devpath : lastPart e.device.devpath = e.name := by
  have hname := (L.name e he).2.2.2.1
  have hpath : ∃ base, e.syspath.drop 4 = base ++ chr '/'::e.name := by
    unfold Entry.syspath
    cases e.place with
    | busDevice s | classDevice s => exact ⟨str "/devices/" ++ e.parent,by simp [str,chr]⟩
    | module => exact ⟨str "/module",by simp [str,chr]⟩
    | busDir => exact ⟨str "/bus",by simp [str,chr]⟩
    | classDir => exact ⟨str "/class",by simp [str,chr]⟩
    | driver bus => exact ⟨str "/bus/" ++ bus ++ str "/drivers",by simp [driverPath,str,chr]⟩
  obtain ⟨base,hbase⟩ := hpath
  have hdevpath : e.device.devpath = e.syspath.drop 4 := rfl
  rw [hdevpath,hbase,lastPart_append _ hname]

theorem getIdFilename_eq :
    getIdFilename k e.device = some
      (if major (k.devnum e.syspath) > 0 then numberId (e.subsystem = str "block") (k.devnum e.syspath)
        else if k.ifindex e.syspath > 0 then chr 'n'::str (toString (k.ifindex e.syspath))
        else chr '+'::(e.subsystem ++ str ":" ++ e.name)) := by
  have hsub : (getters k e.device).subsystem = some e.subsystem := getSubsystem_eq L he
  have hlast := lastPart_devpath L he
  have hblock : Symlinks.isBlock (getters k e.device) = decide (e.subsystem = str "block") := by
    rw [Symlinks.isBlock,hsub]
    simp
  have hdevpath : (getters k e.device).devpath = e.device.devpath := rfl
  rw [lastPart] at hlast
  unfold getIdFilename Symlinks.idFilename
  rw [hsub,Option.map_some,hblock,hdevpath,hlast]
  rfl

omit L he in
theorem newFromDeviceId_name {a b : CString} (ha : chr ':' ∉ a) (hlen : (a ++ chr ':'::b).length < utilPathSize) :
    newFromDeviceId k (chr '+'::(a ++ chr ':'::b)) = newFromSubsystemSysname k a b := by
  have htype : charAt (chr '+'::(a ++ chr ':'::b)) 0 = chr '+' := rfl
  have hb : chr '+' ≠ chr 'b' := by decide
  have hc : chr '+' ≠ chr 'c' := by decide
  have hn : chr '+' ≠ chr 'n' := by decide
  unfold newFromDeviceId
  simp only [htype,hb,hc,hn,or_self,if_false,if_true,List.drop_one,List.tail_cons,strscpy_fits hlen,strchr_append ha,
    Option.bind_some,takeWhile_ne ha]

omit L he in
/-- The id of an interface is looked up by the name that the kernel has for it. -/
theorem newFromDeviceId_interface {ifindex : ℤ} (hpos : ifindex > 0) (hlt : ifindex < 2^31) :
    newFromDeviceId k (chr 'n'::str (toString ifindex)) = (k.ifname ifindex).bind fun name =>
      (newFromSubsystemSysname k (str "net") name).bind fun dev =>
        if k.ifindex dev.syspath = ifindex then some dev else none := by
  obtain ⟨n,rfl⟩ : ∃ n : ℕ, ifindex = n := ⟨ifindex.toNat,by omega⟩
  have hstr : str (toString (n : ℤ)) = printNat n := str_toString (by omega)
  have htype : charAt (chr 'n'::printNat n) 0 = chr 'n' := rfl
  have hb : chr 'n' ≠ chr 'b' := by decide
  have hc : chr 'n' ≠ chr 'c' := by decide
  have hint : toInt32 (n : ℤ) = n := toInt32_eq (by omega) hlt
  have hle : ¬(n : ℤ) ≤ 0 := by omega
  unfold newFromDeviceId
  simp only [hstr,htype,hb,hc,or_self,if_false,if_true,List.drop_one,List.tail_cons,
    strtoul_printNat (by omega : n < 2^64),hint,hle]

end Decode

/-- The id of the device has no slash, and the device is found by it. -/
def RoundTrips (k : Kernel) (e : Entry) : Prop :=
  ∃ id, getIdFilename k e.device = some id ∧ chr '/' ∉ id ∧
    (newFromDeviceId k id).map (·.syspath) = some e.syspath

section RoundTrip

variable {k : Kernel} {S : Entry → Prop} (L : Layout k S) {e : Entry} (he : S e)

include L he

theorem roundTrips_iff_decodes :
    RoundTrips k e ↔ ∃ id, getIdFilename k e.device = some id ∧ (newFromDeviceId k id).map (·.syspath) = some e.syspath := by
  have hslash : ∀ id, getIdFilename k e.device = some id → chr '/' ∉ id := by
    intro id hid
    rw [getIdFilename_eq L he] at hid
    obtain rfl := Option.some.inj hid
    split_ifs with hmajor hpos
    · simp only [numberId,List.mem_cons,List.mem_append,not_or]
      refine ⟨?_,⟨Symlinks.notMem_unsigned not_isDigit_slash _,by decide⟩,Symlinks.notMem_unsigned not_isDigit_slash _⟩
      split_ifs <;> decide
    · obtain ⟨-,hlt,-⟩ := L.interface e he hpos
      obtain ⟨n,hn⟩ : ∃ n : ℕ, k.ifindex e.syspath = n := ⟨(k.ifindex e.syspath).toNat,by omega⟩
      have hstr : str (toString (n : ℤ)) = printNat n := str_toString (by omega)
      rw [hn,hstr,List.mem_cons,not_or]
      exact ⟨by decide,notMem_printNat not_isDigit_slash n⟩
    · simp only [List.mem_cons,List.mem_append,not_or]
      exact ⟨by decide,⟨(L.subsystem e he).2.2.2.1,by decide⟩,(L.name e he).2.2.2.1⟩
  refine exists_congr fun id => and_congr_right fun hid => ?_
  exact and_iff_right (hslash id hid)

theorem decode_plain {s : CString} (hsub : e.subsystem = s) (hdev : e.IsDevice) :
    ((newFromDeviceId k (chr '+'::(s ++ str ":" ++ e.name))).map (·.syspath) = some e.syspath ↔
      Decodable.Plain s ∧ (newFromSubsystemSysname k s e.name).map (·.syspath) = some e.syspath) := by
  have hname := L.name e he
  have hs : Name s := hsub ▸ L.subsystem e he
  have hsize : utilPathSize = 1024 := rfl
  have hs255 := hs.2.2.2.2
  have hn255 := hname.2.2.2.2
  by_cases hcolon : chr ':' ∈ s
  · refine iff_of_false ?_ fun h => h.1.1 hcolon
    obtain ⟨a,c,rfl,ha⟩ := List.eq_append_cons_of_mem hcolon
    have hid : a ++ chr ':'::c ++ str ":" ++ e.name = a ++ chr ':'::(c ++ chr ':'::e.name) := by simp [str,chr]
    have hslash := hs.2.2.2.1
    simp only [List.mem_append,List.mem_cons,not_or] at hslash
    simp only [List.length_append,List.length_cons] at hs255
    have hlen : (a ++ chr ':'::(c ++ chr ':'::e.name)).length < utilPathSize := by
      simp only [List.length_append,List.length_cons]
      omega
    rw [hid,newFromDeviceId_name ha hlen]
    intro h
    obtain ⟨dev,hdev',hpath⟩ := Option.map_eq_some_iff.mp h
    have hb : chr '/' ∉ c ++ chr ':'::e.name := by
      simp only [List.mem_append,List.mem_cons,not_or]
      exact ⟨hslash.2.2,by decide,hname.2.2.2.1⟩
    have hwrong := (lookup_name L he hdev hslash.1 hb (by simp only [List.length_append,List.length_cons]; omega) hdev'
      hpath).1
    have hwronglen := congrArg List.length hwrong
    rw [List.length_append,List.length_cons] at hwronglen
    omega
  · have hid : s ++ str ":" ++ e.name = s ++ chr ':'::e.name := by simp [str,chr]
    have hlen : (s ++ chr ':'::e.name).length < utilPathSize := by
      simp only [List.length_append,List.length_cons]
      omega
    rw [hid,newFromDeviceId_name hcolon hlen]
    refine ⟨fun h => ⟨⟨hcolon,?_⟩,h⟩,And.right⟩
    obtain ⟨dev,hdev',hpath⟩ := Option.map_eq_some_iff.mp h
    exact (lookup_name L he hdev hs.2.2.2.1 hname.2.2.2.1 (by omega) hdev' hpath).2

/-- A device of a class is found unless the bus of this name has a device of its name. -/
theorem decode_class {s : CString} (hplace : e.place = .classDevice s)
    (hs : s ≠ str "subsystem" ∧ s ≠ str "module" ∧ s ≠ str "drivers") :
    newFromSubsystemSysname k s e.name = some e.device ∨
      ∃ e', S e' ∧ e'.place = .busDevice s ∧ e'.name = e.name ∧ newFromSubsystemSysname k s e.name = some e'.device := by
  have hname := L.name e he
  have hsub : Name s := by
    have h := L.subsystem e he
    rwa [Entry.subsystem,hplace] at h
  have hs255 := hsub.2.2.2.2
  have hn255 := hname.2.2.2.2
  rw [lookup_plain L hs (by omega)]
  by_cases hbus : k.stat (busPath s e.name) = true
  · rcases L.busEntry s e.name hsub.2.2.2.1 hname.2.2.2.1 hbus with ⟨e',he',hplace',hname'⟩ | ⟨hno,-⟩
    · refine Or.inr ⟨e',he',hplace',hname',?_⟩
      rw [if_pos hbus,← hname',found_bus L he' hplace']
    · exact absurd ⟨e,he,hplace,rfl⟩ hno
  · rw [if_neg hbus,if_pos (L.classLink e s he hplace).1,found_class L he hplace]
    exact Or.inl rfl

theorem decode_bus {s : CString} (hplace : e.place = .busDevice s)
    (hs : s ≠ str "subsystem" ∧ s ≠ str "module" ∧ s ≠ str "drivers") :
    newFromSubsystemSysname k s e.name = some e.device := by
  have hsub : Name s := by
    have h := L.subsystem e he
    rwa [Entry.subsystem,hplace] at h
  have hs255 := hsub.2.2.2.2
  have hn255 := (L.name e he).2.2.2.2
  rw [lookup_plain L hs (by omega),if_pos (L.busLink e s he hplace).1,found_bus L he hplace]

theorem decode_class_iff {s : CString} (hplace : e.place = .classDevice s)
    (hs : s ≠ str "subsystem" ∧ s ≠ str "module" ∧ s ≠ str "drivers") :
    (newFromSubsystemSysname k s e.name).map (·.syspath) = some e.syspath ↔
      ¬∃ e', S e' ∧ e'.place = .busDevice s ∧ e'.name = e.name := by
  constructor
  · rintro h ⟨e',he',hplace',hname'⟩
    rw [← hname',decode_bus L he' hplace' hs] at h
    have heq := L.distinct e' e he' he (Option.some.inj h)
    rw [heq,hplace] at hplace'
    cases hplace'
  · intro h
    rcases decode_class L he hplace hs with hfound | ⟨e',he',hplace',hname',-⟩
    · rw [hfound]
      rfl
    · exact absurd ⟨e',he',hplace',hname'⟩ h

/-- The directory of a class is found unless there is a bus of its name. -/
theorem decode_classDir_iff (hplace : e.place = .classDir) :
    (newFromSubsystemSysname k (str "subsystem") e.name).map (·.syspath) = some e.syspath ↔
      ¬∃ e', S e' ∧ e'.place = .busDir ∧ e'.name = e.name := by
  have hname := L.name e he
  have hn255 := hname.2.2.2.2
  have hsize : utilPathSize = 1024 := rfl
  have hdev : ¬e.IsDevice := by simp [Entry.IsDevice,hplace]
  have hpath : str "/sys/class/" ++ e.name = e.syspath := by rw [Entry.syspath,hplace]
  rw [lookup_subsystem L (by omega)]
  by_cases hbus : k.stat (str "/sys/bus/" ++ e.name) = true
  · obtain ⟨e',he',hplace',hname'⟩ := L.busDirEntry e.name hname hbus
    have hdev' : ¬e'.IsDevice := by simp [Entry.IsDevice,hplace']
    have hpath' : str "/sys/bus/" ++ e.name = e'.syspath := by rw [Entry.syspath,hplace',hname']
    rw [if_pos hbus,hpath',found_self L he' hdev']
    refine iff_of_false (fun h => ?_) fun h => h ⟨e',he',hplace',hname'⟩
    have heq := L.distinct e' e he' he (Option.some.inj h)
    rw [heq,hplace] at hplace'
    cases hplace'
  · rw [if_neg hbus,hpath,if_pos (L.directory e he hdev).1,found_self L he hdev]
    refine iff_of_true rfl ?_
    rintro ⟨e',he',hplace',hname'⟩
    have hdev' : ¬e'.IsDevice := by simp [Entry.IsDevice,hplace']
    have hpath' : e'.syspath = str "/sys/bus/" ++ e.name := by rw [Entry.syspath,hplace',hname']
    exact hbus (hpath' ▸ (L.directory e' he' hdev').1)

omit L he in
theorem lastPart_driverPath (bus : CString) {name : CString} (hslash : chr '/' ∉ name) :
    lastPart (driverPath bus name) = name := by
  have hcut : driverPath bus name = (str "/sys/bus/" ++ bus ++ str "/drivers") ++ chr '/'::name := by
    simp [driverPath,str,chr]
  rw [hcut,lastPart_append _ hslash]

/-- The name of a driver is taken for a bus and a driver, and the driver that is found has a shorter name. -/
theorem decode_driver {bus : CString} (hplace : e.place = .driver bus) :
    (newFromSubsystemSysname k (str "drivers") e.name).map (·.syspath) ≠ some e.syspath := by
  intro h
  have hname := L.name e he
  have hn255 := hname.2.2.2.2
  have hsize : utilPathSize = 1024 := rfl
  have hlookup := @lookup_drivers k S L e.name (by omega)
  split_ifs at hlookup with hcolon
  · obtain ⟨bus',name',hsplit,hlookup⟩ := hlookup
    have hslash := hname.2.2.2.1
    have hlen := congrArg List.length hsplit
    rw [List.length_append,List.length_cons] at hlen
    rw [hsplit] at hslash
    simp only [List.mem_append,List.mem_cons,not_or] at hslash
    have hstat : k.stat (driverPath bus' name') = true := by
      by_contra hstat
      rw [hlookup,if_neg hstat] at h
      cases h
    rw [hlookup,if_pos hstat] at h
    obtain ⟨dev,hfound,hpath⟩ := Option.map_eq_some_iff.mp h
    have hsys := newFromSyspath_some hfound
    have h9 : (str "/sys/bus/").length = 9 := rfl
    have h9' : (str "/drivers/").length = 9 := rfl
    have hlong : (driverPath bus' name').length < utilPathSize := by
      simp only [driverPath,List.length_append]
      omega
    have hentry : e.syspath = driverPath bus e.name := by rw [Entry.syspath,hplace]
    rw [strscpy_fits hlong,resolve_directory (L.driverDir bus' name' hslash.1 hslash.2.2),hpath,hentry] at hsys
    have heq := congrArg lastPart hsys
    rw [lastPart_driverPath _ hname.2.2.2.1,lastPart_driverPath _ hslash.2.2] at heq
    rw [heq] at hlen
    omega
  · rw [hlookup] at h
    cases h

theorem decode_driver_plain (hdriver : e.IsDriver) (hcolon : chr ':' ∉ e.name) {id : CString}
    (hid : getIdFilename k e.device = some id) : newFromDeviceId k id = none := by
  obtain ⟨bus,hplace⟩ := hdriver
  have hdev : ¬e.IsDevice := by simp [Entry.IsDevice,hplace]
  have hmajor : ¬major (k.devnum e.syspath) > 0 := fun h => hdev (L.numberLink e he h).1
  have hpos : ¬k.ifindex e.syspath > 0 := fun h => by
    have hclass := (L.interface e he h).1
    rw [hplace] at hclass
    cases hclass
  have hn255 := (L.name e he).2.2.2.2
  have hsize : utilPathSize = 1024 := rfl
  have h7 : (str "drivers").length = 7 := rfl
  have hsub : e.subsystem = str "drivers" := by rw [Entry.subsystem,hplace]
  have hsplit : str "drivers" ++ str ":" ++ e.name = str "drivers" ++ chr ':'::e.name := by simp [str,chr]
  rw [getIdFilename_eq L he,if_neg hmajor,if_neg hpos,hsub,hsplit] at hid
  obtain rfl := Option.some.inj hid
  rw [newFromDeviceId_name (by decide) (by simp only [List.length_append,List.length_cons]; omega)]
  have hlookup := @lookup_drivers k S L e.name (by omega)
  rwa [if_neg hcolon] at hlookup

/-- A device is found by its name id if the name is that of one directory entry. -/
theorem decode_name_iff :
    (newFromDeviceId k (chr '+'::(e.subsystem ++ str ":" ++ e.name))).map (·.syspath) = some e.syspath ↔
      match e.place with
      | .busDevice s => Decodable.Plain s
      | .classDevice s => Decodable.Plain s ∧ ¬∃ e', S e' ∧ e'.place = .busDevice s ∧ e'.name = e.name
      | .module => True
      | .busDir => True
      | .classDir => ¬∃ e', S e' ∧ e'.place = .busDir ∧ e'.name = e.name
      | .driver _ => False := by
  have hn255 := (L.name e he).2.2.2.2
  have hsize : utilPathSize = 1024 := rfl
  have hid : ∀ s, e.subsystem = s → chr ':' ∉ s → s.length ≤ 255 →
      newFromDeviceId k (chr '+'::(e.subsystem ++ str ":" ++ e.name)) = newFromSubsystemSysname k s e.name := by
    rintro s rfl hcolon hlen
    have hsplit : e.subsystem ++ str ":" ++ e.name = e.subsystem ++ chr ':'::e.name := by simp [str,chr]
    rw [hsplit,newFromDeviceId_name hcolon (by simp only [List.length_append,List.length_cons]; omega)]
  cases hplace : e.place with
  | busDevice s =>
    have hsub : e.subsystem = s := by rw [Entry.subsystem,hplace]
    rw [hsub,decode_plain L he hsub (Or.inl ⟨s,hplace⟩)]
    refine and_iff_left_of_imp fun h => ?_
    rw [decode_bus L he hplace h.2]
    rfl
  | classDevice s =>
    have hsub : e.subsystem = s := by rw [Entry.subsystem,hplace]
    rw [hsub,decode_plain L he hsub (Or.inr ⟨s,hplace⟩)]
    exact and_congr_right fun h => decode_class_iff L he hplace h.2
  | module =>
    have hdev : ¬e.IsDevice := by simp [Entry.IsDevice,hplace]
    have hpath : str "/sys/module/" ++ e.name = e.syspath := by rw [Entry.syspath,hplace]
    rw [hid (str "module") (by rw [Entry.subsystem,hplace]) (by decide) (by decide),lookup_module (by omega),hpath,
      if_pos (L.directory e he hdev).1,found_self L he hdev]
    exact iff_of_true rfl trivial
  | busDir =>
    have hdev : ¬e.IsDevice := by simp [Entry.IsDevice,hplace]
    have hpath : str "/sys/bus/" ++ e.name = e.syspath := by rw [Entry.syspath,hplace]
    rw [hid (str "subsystem") (by rw [Entry.subsystem,hplace]) (by decide) (by decide),lookup_subsystem L (by omega),
      hpath,if_pos (L.directory e he hdev).1,found_self L he hdev]
    exact iff_of_true rfl trivial
  | classDir =>
    rw [hid (str "subsystem") (by rw [Entry.subsystem,hplace]) (by decide) (by decide)]
    exact decode_classDir_iff L he hplace
  | driver bus =>
    rw [hid (str "drivers") (by rw [Entry.subsystem,hplace]) (by decide) (by decide)]
    exact iff_of_false (decode_driver L he hplace) id

theorem roundTrips_iff : RoundTrips k e ↔ Decodable k S e := by
  rw [roundTrips_iff_decodes L he,getIdFilename_eq L he]
  simp only [Option.some.injEq,exists_eq_left']
  unfold Decodable
  by_cases hmajor : major (k.devnum e.syspath) > 0
  · rw [if_pos hmajor,decode_number L he hmajor]
    exact iff_of_true rfl (Or.inl hmajor)
  · rw [if_neg hmajor,or_iff_right hmajor]
    by_cases hpos : k.ifindex e.syspath > 0
    · obtain ⟨hplace,hlt,hname⟩ := L.interface e he hpos
      have hnet : str "net" ≠ str "subsystem" ∧ str "net" ≠ str "module" ∧ str "net" ≠ str "drivers" := by decide
      rw [if_pos hpos,newFromDeviceId_interface hpos hlt,hname,Option.bind_some,hplace]
      simp only [hpos,true_or,true_and]
      rcases decode_class L he hplace hnet with hfound | ⟨e',he',hplace',hname',hfound⟩
      · have hself : e.device.syspath = e.syspath := rfl
        rw [← decode_class_iff L he hplace hnet,hfound,Option.bind_some,hself,if_pos rfl]
      · have hself : e'.device.syspath = e'.syspath := rfl
        have hother : k.ifindex e'.syspath ≠ k.ifindex e.syspath := by
          intro heq
          have hclass := (L.interface e' he' (heq ▸ hpos)).1
          rw [hplace'] at hclass
          cases hclass
        rw [hfound,Option.bind_some,hself,if_neg hother]
        exact iff_of_false (by simp) fun h => h ⟨e',he',hplace',hname'⟩
    · rw [if_neg hpos,decode_name_iff L he]
      cases e.place <;> simp [hpos]

end RoundTrip

/-- Two devices of a system have different ids without a slash by which they are found, if
and only if both are decodable. -/
theorem ids_unique_iff {k : Kernel} {S : Entry → Prop} (L : Layout k S) {d d' : Entry} (hd : S d) (hd' : S d')
    (hne : d.syspath ≠ d'.syspath) :
    getIdFilename k d.device ≠ getIdFilename k d'.device ∧ RoundTrips k d ∧ RoundTrips k d' ↔
      Decodable k S d ∧ Decodable k S d' := by
  rw [roundTrips_iff L hd,roundTrips_iff L hd']
  refine and_iff_right_of_imp ?_
  rintro ⟨hdec,hdec'⟩ heq
  obtain ⟨id,hid,-,hfound⟩ := (roundTrips_iff L hd).mpr hdec
  obtain ⟨id',hid',-,hfound'⟩ := (roundTrips_iff L hd').mpr hdec'
  rw [heq,hid'] at hid
  obtain rfl := Option.some.inj hid
  exact hne (Option.some.inj (hfound.symm.trans hfound'))

section Drivers

/-- A disk, and the drivers of one name of two buses. -/
def disk : Entry := ⟨.classDevice (str "block"),str "sda",str "pci0"⟩

def pciDriver : Entry := ⟨.driver (str "pci"),str "ahci",[]⟩

def platformDriver : Entry := ⟨.driver (str "platform"),str "ahci",[]⟩

def twoDrivers (e : Entry) : Prop := e = disk ∨ e = pciDriver ∨ e = platformDriver

def driversKernel : Kernel where
  readlink p :=
    if p = str "/sys/class/block/sda" ∨ p = str "/sys/dev/block/8:0" then some (str "../../devices/pci0/sda")
    else if p = str "/sys/devices/pci0/sda/subsystem" then some (str "../../../class/block")
    else none
  stat p := p ∈ [str "/sys/class/block/sda",str "/sys/devices/pci0/sda/uevent",str "/sys/bus/pci/drivers/ahci",
    str "/sys/bus/platform/drivers/ahci"]
  isDir p := p ∈ [str "/sys/bus/pci/drivers/ahci",str "/sys/bus/platform/drivers/ahci"]
  devnum p := if p = str "/sys/devices/pci0/sda" then 2048 else 0
  ifindex _ := 0
  ifname _ := none

theorem split_slash {a a' b b' : CString} (ha : chr '/' ∉ a) (ha' : chr '/' ∉ a')
    (h : a ++ chr '/'::b = a' ++ chr '/'::b') : a = a' ∧ b = b' := by
  have hfirst := congrArg (List.takeWhile (· ≠ chr '/')) h
  rw [takeWhile_ne ha,takeWhile_ne ha'] at hfirst
  subst hfirst
  exact ⟨rfl,(List.cons.inj (List.append_cancel_left h)).2⟩

theorem layout_drivers : Layout driversKernel twoDrivers where
  name := by rintro e (rfl | rfl | rfl) <;> decide
  subsystem := by rintro e (rfl | rfl | rfl) <;> decide
  bus := by
    rintro e b (rfl | rfl | rfl) h
    · cases h
    · obtain rfl := Place.driver.inj h
      decide
    · obtain rfl := Place.driver.inj h
      decide
  short := by rintro e (rfl | rfl | rfl) <;> decide
  distinct := by rintro e e' (rfl | rfl | rfl) (rfl | rfl | rfl) <;> decide
  uevent := by
    rintro e (rfl | rfl | rfl) (⟨s,hs⟩ | ⟨s,hs⟩) <;> cases hs
    decide
  subsystemLink := by
    rintro e (rfl | rfl | rfl) (⟨s,hs⟩ | ⟨s,hs⟩) <;> cases hs
    exact ⟨str "../../../class",by decide,by decide⟩
  directory := by
    rintro e (rfl | rfl | rfl) h
    · exact absurd (Or.inr ⟨_,rfl⟩) h
    · decide
    · decide
  moduleDir n _ := by simp [driversKernel,str]
  busDir n _ := by simp [driversKernel,str]
  classDir n hn := by
    have hne : n ≠ str "block/sda" := by
      rintro rfl
      exact hn (by decide)
    simpa [driversKernel,str] using hne
  driverDir bus n _ _ := by simp [driversKernel,driverPath,str]
  busLink := by
    rintro e s (rfl | rfl | rfl) hs <;> cases hs
  classLink := by
    rintro e s (rfl | rfl | rfl) hs <;> cases hs
    decide
  numberLink := by
    rintro e (rfl | rfl | rfl) hmajor
    · exact ⟨Or.inr ⟨_,rfl⟩,by decide⟩
    · exact absurd hmajor (by decide)
    · exact absurd hmajor (by decide)
  busEntry s n hs hn h := by
    have hother : ∀ b m, chr '/' ∉ b → busPath s n ≠ driverPath b m := by
      intro b m hb heq
      have hsplit : s ++ chr '/'::(str "devices/" ++ n) = b ++ chr '/'::(str "drivers/" ++ m) := by
        simpa [busPath,driverPath,str,chr] using heq
      have hrest := (split_slash hs hb hsplit).2
      simp [str] at hrest
    rcases List.mem_cons.mp (of_decide_eq_true h) with heq | h
    · simp [busPath,str] at heq
    rcases List.mem_cons.mp h with heq | h
    · simp [busPath,str] at heq
    rcases List.mem_cons.mp h with heq | h
    · exact absurd heq (hother (str "pci") (str "ahci") (by decide))
    · exact absurd (List.mem_singleton.mp h) (hother (str "platform") (str "ahci") (by decide))
  classEntry s n hs hn h := by
    rcases List.mem_cons.mp (of_decide_eq_true h) with heq | h
    · have hsplit : s ++ chr '/'::n = str "block" ++ chr '/'::str "sda" := by
        simpa [classPath,str,chr] using heq
      obtain ⟨rfl,rfl⟩ := split_slash hs (by decide) hsplit
      exact Or.inl ⟨disk,Or.inl rfl,rfl,rfl⟩
    · simp [classPath,str] at h
  busDirEntry n hn h := by
    have hslash : ∀ b m, n ≠ b ++ chr '/'::m := by
      rintro b m rfl
      exact hn.2.2.2.1 (by simp)
    rcases List.mem_cons.mp (of_decide_eq_true h) with heq | h
    · simp [str] at heq
    rcases List.mem_cons.mp h with heq | h
    · simp [str] at heq
    rcases List.mem_cons.mp h with heq | h
    · exact absurd (List.append_cancel_left heq) (hslash (str "pci") (str "drivers/ahci"))
    · exact absurd (List.append_cancel_left (List.mem_singleton.mp h)) (hslash (str "platform") (str "drivers/ahci"))
  noSubsystemDir path := by simp [driversKernel,str]
  interface e _ h := absurd h (Int.lt_irrefl 0)

theorem ids_unique_disk :
    getIdFilename driversKernel disk.device ≠ getIdFilename driversKernel pciDriver.device ∧
        RoundTrips driversKernel disk ∧ RoundTrips driversKernel pciDriver ↔
      Decodable driversKernel twoDrivers disk ∧ Decodable driversKernel twoDrivers pciDriver :=
  ids_unique_iff layout_drivers (Or.inl rfl) (Or.inr (Or.inl rfl)) (by decide)

/-- The drivers of one name have one id, and no device is found by it. -/
theorem driver_ids_clash :
    pciDriver.syspath ≠ platformDriver.syspath ∧
      getIdFilename driversKernel pciDriver.device = some (str "+drivers:ahci") ∧
      getIdFilename driversKernel platformDriver.device = some (str "+drivers:ahci") ∧
      newFromDeviceId driversKernel (str "+drivers:ahci") = none := by
  decide

end Drivers

end DeviceIds
end Udev
