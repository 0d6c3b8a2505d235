import Udev.Receive
import Udev.SortedMap

/-! What one string of a message does to the device that is received, and what the whole
message does. -/
namespace Udev
namespace Receive

open CString Text Decimal Device

def entry (name value : CString) : CString := name ++ str "=" ++ value

def message (l : List (CString × CString)) : List UInt8 := l.flatMap fun e => entry e.1 e.2 ++ [0]

/-- What of a device a message says, and what of it is not yet put together. -/
structure View where
  devpath : Option CString
  subsystem : Option CString
  devtype : Option CString
  devnode : Option CString
  driver : Option CString
  action : Option Action
  seqnum : ℕ
  ifindex : ℤ
  maj : ℤ
  min : ℤ
  devnum : UInt64
  devlinks : UdevList
  tags : UdevList
  uptodate : Bool

def view (r : Parsed) : View where
  devpath := if r.hasPath then some r.dev.devpath else none
  subsystem := r.dev.subsystem
  devtype := r.dev.devtype
  devnode := r.dev.devnode
  driver := r.dev.driver
  action := r.dev.action
  seqnum := r.dev.seqnum
  ifindex := r.dev.ifindex
  maj := r.maj
  min := r.min
  devnum := r.dev.devnum
  devlinks := r.dev.devlinksList
  tags := r.dev.tagsList
  uptodate := r.dev.devlinksUptodate || r.dev.tagsUptodate

def derivedKeys : List CString := [str "DEVLINKS",str "TAGS",str "MAJOR",str "MINOR",str "USEC_INITIALIZED"]

def knownKeys : List CString :=
  [str "DEVPATH",str "SUBSYSTEM",str "DEVTYPE",str "DEVNAME",str "DRIVER",str "ACTION",str "DEVPATH_OLD",
   str "SEQNUM",str "IFINDEX",str "DEVMODE",str "DEVUID",str "DEVGID"] ++ derivedKeys

def View.step (v : View) (name value : CString) : View where
  devpath := if name = str "DEVPATH" then some value else v.devpath
  subsystem := if name = str "SUBSYSTEM" then some value else v.subsystem
  devtype := if name = str "DEVTYPE" then some value else v.devtype
  devnode := if name = str "DEVNAME" then some value else v.devnode
  driver := if name = str "DRIVER" then some value else v.driver
  action := if name = str "ACTION" then actionOf value else v.action
  seqnum := if name = str "SEQNUM" then (strtoul 10 value).1 else v.seqnum
  ifindex := if name = str "IFINDEX" then strtoint value else v.ifindex
  maj := if name = str "MAJOR" then strtoint value else v.maj
  min := if name = str "MINOR" then strtoint value else v.min
  devnum := v.devnum
  devlinks :=
    if name = str "DEVLINKS" then
      (devlinkNames (value.length+1) value).foldl (fun (l : UdevList) n => l.add n none) v.devlinks
    else v.devlinks
  tags :=
    if name = str "TAGS" then
      (tagNames value.length (value.drop 1)).foldl (fun (l : UdevList) n => l.add n none) v.tags
    else v.tags
  uptodate := v.uptodate

/-- What a property changes of a device; the time is left out. -/
structure Arrives (r : Parsed) (name value : CString) (r' : Parsed) : Prop where
  view : view r' = (view r).step name value
  lookup : ∀ key, key ≠ str "USEC_INITIALIZED" →
    r'.dev.lookup key = if name = key ∧ name ∉ derivedKeys then some value else r.dev.lookup key

structure EntryOk (name value : CString) : Prop where
  nul : 0 ∉ entry name value
  equals : chr '=' ∉ name
  fits : (entry name value).length < 4096
  devpath : name = str "DEVPATH" → value.length+4 < utilPathSize
  devnode : name = str "DEVNAME" → charAt value 0 = chr '/'
  action : name = str "ACTION" → ∃ a : Action, value = a.name
  seqnum : name = str "SEQNUM" → ∃ n, n < 2^64 ∧ value = printNat n
  ifindex : name = str "IFINDEX" → ∃ n, n < 2^32 ∧ value = printNat n
  mode : name = str "DEVMODE" → ∃ n, n ≤ 511 ∧ value = printMode n
  owner : name = str "DEVUID" ∨ name = str "DEVGID" → ∃ n, n < 2^32 ∧ value = printNat n
  devlinks : name = str "DEVLINKS" → value.length < utilPathSize
  tags : name = str "TAGS" → value.length < utilPathSize ∧ charAt value 0 = chr ':' ∧
    ∀ tag ∈ tagNames value.length (value.drop 1), chr ' ' ∉ tag
  other : name ∉ knownKeys → value ≠ []

section Step

variable {r r' : Parsed} {name value : CString}

theorem arrives_setProperty (hname : name ∉ derivedKeys)
    (hprops : r'.dev.propertiesList = r.dev.propertiesList.add name (some value))
    (hview : view r' = (view r).step name value) : Arrives r name value r' where
  view := hview
  lookup := by
    intro key _
    have hdev : r'.dev.lookup key = (r.dev.setProperty name value).lookup key := by
      rw [Device.lookup,Device.lookup,hprops]
      rfl
    rw [hdev]
    by_cases hkey : name = key
    · subst hkey
      rw [if_pos ⟨rfl,hname⟩,lookup_setProperty_self]
    · rw [if_neg fun h => hkey h.1,lookup_setProperty_ne value (Ne.symm hkey)]

theorem arrives_derived (hname : name ∈ derivedKeys)
    (hprops : r'.dev.propertiesList = r.dev.propertiesList)
    (hview : view r' = (view r).step name value) : Arrives r name value r' where
  view := hview
  lookup := by
    intro key _
    rw [if_neg fun h => h.2 hname,Device.lookup,Device.lookup,hprops]

theorem eq_of_startswith {key : CString} (hname : chr '=' ∉ name) (hkey : chr '=' ∉ key)
    (h : startswith (entry name value) (key ++ str "=") = true) : name = key := by
  obtain ⟨rest,hrest⟩ := List.isPrefixOf_iff_prefix.mp h
  rw [entry,List.append_assoc,List.append_assoc] at hrest
  have htake : (key ++ chr '='::rest).takeWhile (· ≠ chr '=') = name := by
    rw [show key ++ chr '='::rest = name ++ chr '='::value from hrest]
    exact takeWhile_ne hname value
  rw [← htake,takeWhile_ne hkey rest]

theorem actionOf_name (a : Action) : actionOf a.name = some a := by cases a <;> rfl

theorem strtoint_printNat {n : ℕ} (h : n < 2^64) : strtoint (printNat n) = toInt32 n := by
  rw [strtoint,strtoul_printNat h]

theorem arrives_devpath (h : EntryOk (str "DEVPATH") value) (r : Parsed) (memory : List UInt8) :
    Arrives r (str "DEVPATH") value (addPropertyFromStringParse r (entry (str "DEVPATH") value) memory) := by
  have hcopy : strscpyl utilPathSize [str "/sys",value] = str "/sys" ++ value := by
    have hlen := h.devpath rfl
    have hfour : (str "/sys").length = 4 := rfl
    have hflat : [str "/sys",value].flatten = str "/sys" ++ value := by simp
    rw [strscpyl_fits (by rw [hflat,List.length_append]; omega),hflat]
  have hparse : addPropertyFromStringParse r (entry (str "DEVPATH") value) memory =
      { r with dev := r.dev.setSyspath (strscpyl utilPathSize [str "/sys",value]), hasPath := true } := rfl
  rw [hparse,hcopy]
  exact arrives_setProperty (by decide) rfl rfl

theorem arrives_text (hname : name ∈ [str "SUBSYSTEM",str "DEVTYPE",str "DRIVER",str "DEVPATH_OLD"]) (r : Parsed)
    (memory : List UInt8) : Arrives r name value (addPropertyFromStringParse r (entry name value) memory) := by
  simp only [List.mem_cons,List.not_mem_nil,or_false] at hname
  rcases hname with rfl | rfl | rfl | rfl
  all_goals exact arrives_setProperty (by decide) rfl rfl

theorem arrives_devnode (h : EntryOk (str "DEVNAME") value) (r : Parsed) (memory : List UInt8) :
    Arrives r (str "DEVNAME") value (addPropertyFromStringParse r (entry (str "DEVNAME") value) memory) := by
  have hparse : addPropertyFromStringParse r (entry (str "DEVNAME") value) memory =
      { r with dev := r.dev.setDevnode value } := rfl
  have hslash : (if charAt value 0 ≠ chr '/' then str "/dev/" ++ value else value) = value :=
    if_neg (not_not.mpr (h.devnode rfl))
  rw [hparse,setDevnode,hslash]
  exact arrives_setProperty (by decide) rfl rfl

theorem arrives_action (h : EntryOk (str "ACTION") value) (r : Parsed) (memory : List UInt8) :
    Arrives r (str "ACTION") value (addPropertyFromStringParse r (entry (str "ACTION") value) memory) := by
  obtain ⟨a,rfl⟩ := h.action rfl
  have hparse : addPropertyFromStringParse r (entry (str "ACTION") a.name) memory =
      { r with dev := r.dev.setAction a.name } := rfl
  rw [hparse,setAction,actionOf_name]
  refine arrives_setProperty (by decide) rfl ?_
  have hstep : (view r).step (str "ACTION") a.name = { view r with action := actionOf a.name } := rfl
  rw [hstep,actionOf_name]
  rfl

theorem arrives_seqnum (h : EntryOk (str "SEQNUM") value) (r : Parsed) (memory : List UInt8) :
    Arrives r (str "SEQNUM") value (addPropertyFromStringParse r (entry (str "SEQNUM") value) memory) := by
  have hparse : addPropertyFromStringParse r (entry (str "SEQNUM") value) memory =
      { r with dev := r.dev.setSeqnum (strtoul 10 value).1 } := rfl
  have hstep : (view r).step (str "SEQNUM") value = { view r with seqnum := (strtoul 10 value).1 } := by
    simp +decide only [View.step,if_true,if_false]
  have hprint : printNat (strtoul 10 value).1 = value := by
    obtain ⟨n,hn,rfl⟩ := h.seqnum rfl
    rw [strtoul_printNat hn]
  rw [hparse,setSeqnum,hprint]
  generalize (strtoul 10 value).1 = n at hstep
  refine arrives_setProperty (by decide) rfl ?_
  rw [hstep]
  rfl

theorem toInt32_emod (n : ℕ) : (toInt32 n % 2^32).toNat = n % 2^32 := by
  have hmod : toInt32 n % ((2^32 : ℕ) : ℤ) = n % ((2^32 : ℕ) : ℤ) := Int.bmod_emod
  omega

theorem arrives_ifindex (h : EntryOk (str "IFINDEX") value) (r : Parsed) (memory : List UInt8) :
    Arrives r (str "IFINDEX") value (addPropertyFromStringParse r (entry (str "IFINDEX") value) memory) := by
  have hparse : addPropertyFromStringParse r (entry (str "IFINDEX") value) memory =
      { r with dev := r.dev.setIfindex (strtoint value) } := rfl
  have hstep : (view r).step (str "IFINDEX") value = { view r with ifindex := strtoint value } := by
    simp +decide only [View.step,if_true,if_false]
  have hprint : printNat (strtoint value % 2^32).toNat = value := by
    obtain ⟨n,hn,rfl⟩ := h.ifindex rfl
    rw [strtoint_printNat (by omega),toInt32_emod,Nat.mod_eq_of_lt hn]
  rw [hparse,setIfindex,hprint]
  generalize strtoint value = z at hstep
  refine arrives_setProperty (by decide) rfl ?_
  rw [hstep]
  rfl

theorem strtoul_printMode : ∀ n, n < 512 → 511 &&& (strtoul 8 (printMode n)).1 = n := by decide +kernel

theorem arrives_mode (h : EntryOk (str "DEVMODE") value) (r : Parsed) (memory : List UInt8) :
    Arrives r (str "DEVMODE") value (addPropertyFromStringParse r (entry (str "DEVMODE") value) memory) := by
  have hparse : addPropertyFromStringParse r (entry (str "DEVMODE") value) memory =
      r.setDevnodeMode (511 &&& (strtoul 8 value).1) := rfl
  obtain ⟨n,hn,rfl⟩ := h.mode rfl
  rw [hparse,strtoul_printMode n (by omega)]
  exact arrives_setProperty (by decide) rfl rfl

theorem arrives_owner (hname : name = str "DEVUID" ∨ name = str "DEVGID") (h : EntryOk name value) (r : Parsed)
    (memory : List UInt8) : Arrives r name value (addPropertyFromStringParse r (entry name value) memory) := by
  obtain ⟨n,hn,rfl⟩ := h.owner hname
  have hnum : (strtoul 10 (printNat n)).1 % 2^32 = n := by
    rw [strtoul_printNat (by omega)]
    exact Nat.mod_eq_of_lt hn
  rcases hname with rfl | rfl
  · have hparse : addPropertyFromStringParse r (entry (str "DEVUID") (printNat n)) memory =
        r.setDevnodeUid ((strtoul 10 (printNat n)).1 % 2^32) := rfl
    rw [hparse,hnum]
    exact arrives_setProperty (by decide) rfl rfl
  · have hparse : addPropertyFromStringParse r (entry (str "DEVGID") (printNat n)) memory =
        r.setDevnodeGid ((strtoul 10 (printNat n)).1 % 2^32) := rfl
    rw [hparse,hnum]
    exact arrives_setProperty (by decide) rfl rfl

theorem arrives_number (hname : name = str "MAJOR" ∨ name = str "MINOR") (r : Parsed) (memory : List UInt8) :
    Arrives r name value (addPropertyFromStringParse r (entry name value) memory) := by
  rcases hname with rfl | rfl
  · have hparse : addPropertyFromStringParse r (entry (str "MAJOR") value) memory =
        { r with maj := strtoint value } := rfl
    have hstep : (view r).step (str "MAJOR") value = { view r with maj := strtoint value } := by
      simp +decide only [View.step,if_true,if_false]
    rw [hparse]
    generalize strtoint value = z at hstep
    exact arrives_derived (by decide) rfl hstep.symm
  · have hparse : addPropertyFromStringParse r (entry (str "MINOR") value) memory =
        { r with min := strtoint value } := rfl
    have hstep : (view r).step (str "MINOR") value = { view r with min := strtoint value } := by
      simp +decide only [View.step,if_true,if_false]
    rw [hparse]
    generalize strtoint value = z at hstep
    exact arrives_derived (by decide) rfl hstep.symm

theorem arrives_usec (r : Parsed) (memory : List UInt8) :
    Arrives r (str "USEC_INITIALIZED") value
      (addPropertyFromStringParse r (entry (str "USEC_INITIALIZED") value) memory) := by
  have hparse : addPropertyFromStringParse r (entry (str "USEC_INITIALIZED") value) memory =
      { r with dev := Database.setUsecInitialized r.dev (strtoul 10 ((value ++ 0::memory).drop 2)).1 } := rfl
  rw [hparse]
  generalize (strtoul 10 ((value ++ 0::memory).drop 2)).1 = usec
  refine ⟨rfl,?_⟩
  intro key hkey
  rw [if_neg fun h => hkey h.1.symm]
  exact lookup_setProperty_ne _ hkey

theorem arrives_other (h : EntryOk name value) (hname : name ∉ knownKeys) (r : Parsed) (memory : List UInt8) :
    Arrives r name value (addPropertyFromStringParse r (entry name value) memory) := by
  have hno : ∀ start ∈ knownKeys.map (· ++ str "="), ¬startswith (entry name value) start = true := by
    intro start hmem hstart
    obtain ⟨key,hkey,rfl⟩ := List.mem_map.mp hmem
    have hequals : chr '=' ∉ key := (by decide : ∀ key ∈ knownKeys, chr '=' ∉ key) key hkey
    exact hname (eq_of_startswith h.equals hequals hstart ▸ hkey)
  have hparse : addPropertyFromStringParse r (entry name value) memory =
      { r with dev := (Database.addPropertyFromString r.dev (entry name value)).1 } := by
    unfold addPropertyFromStringParse
    rw [if_neg (hno (str "DEVPATH=") (by decide)),if_neg (hno (str "SUBSYSTEM=") (by decide)),
      if_neg (hno (str "DEVTYPE=") (by decide)),if_neg (hno (str "DEVNAME=") (by decide)),
      if_neg (hno (str "DEVLINKS=") (by decide)),if_neg (hno (str "TAGS=") (by decide)),
      if_neg (hno (str "USEC_INITIALIZED=") (by decide)),if_neg (hno (str "DRIVER=") (by decide)),
      if_neg (hno (str "ACTION=") (by decide)),if_neg (hno (str "MAJOR=") (by decide)),
      if_neg (hno (str "MINOR=") (by decide)),if_neg (hno (str "DEVPATH_OLD=") (by decide)),
      if_neg (hno (str "SEQNUM=") (by decide)),if_neg (hno (str "IFINDEX=") (by decide)),
      if_neg (hno (str "DEVMODE=") (by decide)),if_neg (hno (str "DEVUID=") (by decide)),
      if_neg (hno (str "DEVGID=") (by decide))]
  have hadd : Database.addPropertyFromString r.dev (entry name value) = (r.dev.setProperty name value,some name) := by
    have hfits := h.fits
    have hsize : utilLineSize = 16384 := rfl
    exact Database.addPropertyFromString_append r.dev h.equals (h.other hname) (by rw [entry] at hfits; omega)
  have hne : ∀ key ∈ knownKeys, name ≠ key := fun key hkey heq => hname (heq ▸ hkey)
  rw [hparse,hadd]
  refine arrives_setProperty (fun hmem => hname (List.mem_append_right _ hmem)) rfl ?_
  rw [View.step,if_neg (hne (str "DEVPATH") (by decide)),if_neg (hne (str "SUBSYSTEM") (by decide)),
    if_neg (hne (str "DEVTYPE") (by decide)),if_neg (hne (str "DEVNAME") (by decide)),
    if_neg (hne (str "DRIVER") (by decide)),if_neg (hne (str "ACTION") (by decide)),
    if_neg (hne (str "SEQNUM") (by decide)),if_neg (hne (str "IFINDEX") (by decide)),
    if_neg (hne (str "MAJOR") (by decide)),if_neg (hne (str "MINOR") (by decide)),
    if_neg (hne (str "DEVLINKS") (by decide)),if_neg (hne (str "TAGS") (by decide))]
  rfl

theorem view_addDevlinks (hr : (view r).uptodate = false) (links : List CString) :
    view { r with dev := links.foldl addDevlink r.dev } =
      { view r with devlinks := links.foldl (fun (l : UdevList) n => l.add n none) r.dev.devlinksList } := by
  induction links generalizing r with
  | nil => rfl
  | cons n links ih =>
    have hflags := hr
    simp only [view,Bool.or_eq_false_iff] at hflags
    have hstep : view { r with dev := r.dev.addDevlink n } =
        { view r with devlinks := r.dev.devlinksList.add n none } := by
      simp only [view,addDevlink,hflags.1,hflags.2]
    have hup : (view { r with dev := r.dev.addDevlink n }).uptodate = false := by rw [hstep]; exact hr
    rw [List.foldl_cons,ih hup,hstep]
    rfl

theorem view_addTags (hr : (view r).uptodate = false) {tags : List CString}
    (htags : ∀ tag ∈ tags, chr ':' ∉ tag ∧ chr ' ' ∉ tag) :
    view { r with dev := tags.foldl addTag r.dev } =
      { view r with tags := tags.foldl (fun (l : UdevList) n => l.add n none) r.dev.tagsList } := by
  induction tags generalizing r with
  | nil => rfl
  | cons n tags ih =>
    have hflags := hr
    simp only [view,Bool.or_eq_false_iff] at hflags
    obtain ⟨hcolon,hspace⟩ := htags n List.mem_cons_self
    have hadd : r.dev.addTag n = { r.dev with tagsUptodate := false, tagsList := r.dev.tagsList.add n none } := by
      rw [addTag,strchr_eq_none hcolon,strchr_eq_none hspace]
      rfl
    have hstep : view { r with dev := r.dev.addTag n } = { view r with tags := r.dev.tagsList.add n none } := by
      simp only [view,hadd,hflags.1,hflags.2]
    have hup : (view { r with dev := r.dev.addTag n }).uptodate = false := by rw [hstep]; exact hr
    rw [List.foldl_cons,ih hup fun t ht => htags t (List.mem_cons_of_mem _ ht),hstep,hadd]
    rfl

theorem propertiesList_addDevlinks (d : Device) (links : List CString) :
    (links.foldl addDevlink d).propertiesList = d.propertiesList := by
  induction links generalizing d with
  | nil => rfl
  | cons n links ih => rw [List.foldl_cons,ih]; rfl

theorem propertiesList_addTags (d : Device) (tags : List CString) :
    (tags.foldl addTag d).propertiesList = d.propertiesList := by
  induction tags generalizing d with
  | nil => rfl
  | cons n tags ih =>
    rw [List.foldl_cons,ih,addTag]
    split_ifs <;> rfl

theorem arrives_devlinks (h : EntryOk (str "DEVLINKS") value) {r : Parsed} (hr : (view r).uptodate = false)
    (memory : List UInt8) :
    Arrives r (str "DEVLINKS") value (addPropertyFromStringParse r (entry (str "DEVLINKS") value) memory) := by
  have hparse : addPropertyFromStringParse r (entry (str "DEVLINKS") value) memory =
      { r with
        dev := List.foldl addDevlink r.dev
          (devlinkNames ((strscpy utilPathSize value).length+1) (strscpy utilPathSize value)) } := rfl
  rw [hparse,strscpy_fits (h.devlinks rfl)]
  exact arrives_derived (by decide) (propertiesList_addDevlinks _ _) (view_addDevlinks hr _)

theorem colon_tagNames (n : ℕ) (s : CString) : ∀ tag ∈ tagNames n s, chr ':' ∉ tag := by
  induction n generalizing s with
  | zero => simp [tagNames]
  | succ n ih =>
    unfold tagNames
    split
    · simp
    · intro tag htag
      rcases List.mem_cons.mp htag with rfl | htag
      · intro hmem
        simpa using List.mem_takeWhile_imp hmem
      · exact ih _ tag htag

theorem arrives_tags (h : EntryOk (str "TAGS") value) {r : Parsed} (hr : (view r).uptodate = false)
    (memory : List UInt8) :
    Arrives r (str "TAGS") value (addPropertyFromStringParse r (entry (str "TAGS") value) memory) := by
  obtain ⟨hlen,hcolon,hspace⟩ := h.tags rfl
  have hparse : addPropertyFromStringParse r (entry (str "TAGS") value) memory =
      { r with
        dev := List.foldl addTag r.dev ((strchr (strscpy utilPathSize value) (chr ':')).elim [] fun next =>
          tagNames (strscpy utilPathSize value).length (next.drop 1)) } := rfl
  have hfirst : strchr value (chr ':') = some value := by
    cases value with
    | nil => exact absurd hcolon (by decide)
    | cons c rest =>
      have hc : c = chr ':' := hcolon
      rw [strchr,if_pos hc]
  rw [hparse,strscpy_fits hlen,hfirst,Option.elim_some]
  refine arrives_derived (by decide) (propertiesList_addTags _ _) (view_addTags hr ?_)
  intro tag htag
  exact ⟨colon_tagNames _ _ tag htag,hspace tag htag⟩

theorem arrives (h : EntryOk name value) {r : Parsed} (hr : (view r).uptodate = false) (memory : List UInt8) :
    Arrives r name value (addPropertyFromStringParse r (entry name value) memory) := by
  by_cases hname : name ∈ knownKeys
  · simp only [knownKeys,derivedKeys,List.cons_append,List.nil_append,List.mem_cons,List.not_mem_nil,or_false] at hname
    rcases hname with rfl | rfl | rfl | rfl | rfl | rfl | rfl | rfl | rfl | rfl | rfl | rfl | rfl | rfl | rfl | rfl | rfl
    · exact arrives_devpath h r memory
    · exact arrives_text (by decide) r memory
    · exact arrives_text (by decide) r memory
    · exact arrives_devnode h r memory
    · exact arrives_text (by decide) r memory
    · exact arrives_action h r memory
    · exact arrives_text (by decide) r memory
    · exact arrives_seqnum h r memory
    · exact arrives_ifindex h r memory
    · exact arrives_mode h r memory
    · exact arrives_owner (Or.inl rfl) h r memory
    · exact arrives_owner (Or.inr rfl) h r memory
    · exact arrives_devlinks h hr memory
    · exact arrives_tags h hr memory
    · exact arrives_number (Or.inl rfl) r memory
    · exact arrives_number (Or.inr rfl) r memory
    · exact arrives_usec r memory
  · exact arrives_other h hname r memory

end Step

section Run

variable {l : List (CString × CString)}

theorem parseStrings_cons {name value : CString} (hnul : 0 ∉ entry name value) (l : List (CString × CString))
    (behind : List UInt8) (fuel : ℕ) (r : Parsed) :
    parseStrings behind (fuel+1) (message ((name,value)::l)) r =
      parseStrings behind fuel (message l) (addPropertyFromStringParse r (entry name value) (message l ++ behind)) := by
  have hmessage : message ((name,value)::l) = entry name value ++ 0::message l := by
    simp [message]
  have hne : entry name value ≠ [] := by simp [entry,str]
  rw [hmessage]
  exact parseStrings_string hne hnul (message l) behind fuel r

theorem uptodate_step (v : View) (name value : CString) : (v.step name value).uptodate = v.uptodate := rfl

theorem view_parseStrings (hl : ∀ e ∈ l, EntryOk e.1 e.2) (behind : List UInt8) {fuel : ℕ} (hfuel : l.length ≤ fuel)
    {r : Parsed} (hr : (view r).uptodate = false) :
    view (parseStrings behind fuel (message l) r) = l.foldl (fun v e => v.step e.1 e.2) (view r) ∧
      ∀ key, key ≠ str "USEC_INITIALIZED" → (parseStrings behind fuel (message l) r).dev.lookup key =
        l.foldl (fun v e => if e.1 = key ∧ e.1 ∉ derivedKeys then some e.2 else v) (r.dev.lookup key) := by
  induction l generalizing fuel r with
  | nil =>
    have hstop : parseStrings behind fuel (message []) r = r := by
      cases fuel with
      | zero => rfl
      | succ fuel =>
        rw [parseStrings]
        exact if_pos (Or.inl rfl)
    rw [hstop]
    exact ⟨rfl,fun _ _ => rfl⟩
  | cons e l ih =>
    obtain ⟨name,value⟩ := e
    have he : EntryOk name value := hl (name,value) List.mem_cons_self
    rw [List.length_cons] at hfuel
    obtain ⟨fuel,rfl⟩ : ∃ m, fuel = m+1 := ⟨fuel-1,by omega⟩
    have hlen : l.length ≤ fuel := by omega
    have harrives := arrives he hr (message l ++ behind)
    have hup : (view (addPropertyFromStringParse r (entry name value) (message l ++ behind))).uptodate = false := by
      rw [harrives.view,uptodate_step]
      exact hr
    obtain ⟨hview,hlookup⟩ := ih (fun x hx => hl x (List.mem_cons_of_mem _ hx)) hlen hup
    rw [parseStrings_cons he.nul]
    refine ⟨?_,?_⟩
    · rw [hview,harrives.view]
      rfl
    · intro key hkey
      rw [hlookup key hkey,harrives.lookup key hkey]
      rfl

theorem foldl_key {γ δ : Type} {f : γ → CString × CString → γ} (p : γ → δ) (key : CString) (g : δ → CString → δ)
    (hstep : ∀ v e, p (f v e) = if e.1 = key then g (p v) e.2 else p v) (hl : (l.map (·.1)).Nodup) (v : γ) :
    p (l.foldl f v) = (SortedMap.get l key).elim (p v) (g (p v)) := by
  induction l generalizing v with
  | nil => rfl
  | cons e l ih =>
    rw [List.map_cons,List.nodup_cons] at hl
    rw [List.foldl_cons,ih hl.2,hstep,SortedMap.get_cons]
    by_cases he : e.1 = key
    · have hnone : SortedMap.get l key = none := by
        refine SortedMap.get_eq_none.mpr ?_
        rintro x hx rfl
        exact hl.1 (he ▸ List.mem_map_of_mem hx)
      rw [if_pos he,if_pos he,hnone]
      rfl
    · rw [if_neg he,if_neg he]

end Run

end Receive
end Udev
