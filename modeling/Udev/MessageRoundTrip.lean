import Udev.MessageSteps
import Udev.PrivateKeys

/-! A device that is sent as a message and received again. The message has the properties that
are not private, so a value of the device arrives if a property says it. -/
namespace Udev
namespace Receive

open CString Text Decimal Device SocketFilter Rules

def sent (d : Device) : List (CString × CString) :=
  (d.sync.propertiesList.filter fun e => Public e.name).map fun e => (e.name,e.value.getD [])

/-- The cached strings of a device, if it has some, are those of its properties. -/
def Current (d : Device) : Prop := d.envpUptodate = true →
  d.devlinksUptodate = true ∧ d.tagsUptodate = true ∧ envpLoop d.propertiesList 0 4096 = some d.envp

section Sent

theorem monitorBuf_sent {d : Device} {buf : List UInt8} (hcurrent : Current d) (h : monitorBuf d = some buf) :
    buf = message (sent d) ∧ ∀ e ∈ sent d, (entry e.1 e.2).length < 4096 := by
  have henvp : ∃ envp, envpLoop d.sync.propertiesList 0 4096 = some envp ∧ buf = envp.flatMap (· ++ [0]) := by
    unfold monitorBuf propertiesEnvp at h
    by_cases hup : d.envpUptodate = true
    · obtain ⟨hlinks,htags,henvp⟩ := hcurrent hup
      have hsync : d.sync = d := by simp [sync,syncDevlinks,syncTags,hlinks,htags]
      rw [if_pos hup] at h
      cases h
      exact ⟨d.envp,by rw [hsync]; exact henvp,rfl⟩
    · rw [if_neg hup] at h
      cases hloop : envpLoop d.sync.propertiesList 0 4096 with
      | none =>
        simp only [hloop] at h
        cases h
      | some envp =>
        simp only [hloop] at h
        cases h
        exact ⟨envp,rfl,rfl⟩
  obtain ⟨envp,hloop,rfl⟩ := henvp
  obtain ⟨rfl,hlen⟩ := envpLoop_strings hloop
  refine ⟨?_,?_⟩
  · simp only [message,sent,List.flatMap_map]
    rfl
  · intro e he
    obtain ⟨x,hx,rfl⟩ := List.mem_map.mp he
    exact hlen _ (List.mem_map_of_mem hx)

end Sent

section Lists

theorem devlinkNames_join {names : List CString} (hspace : ∀ n ∈ names, chr ' ' ∉ n) (hlast : names.getLast? ≠ some [])
    {fuel : ℕ} (hfuel : (names.intersperse (str " ")).flatten.length < fuel) :
    devlinkNames fuel (names.intersperse (str " ")).flatten = names := by
  induction names generalizing fuel with
  | nil =>
    obtain ⟨fuel,rfl⟩ : ∃ m, fuel = m+1 := ⟨fuel-1,by omega⟩
    rfl
  | cons a names ih =>
    obtain ⟨fuel,rfl⟩ : ∃ m, fuel = m+1 := ⟨fuel-1,by omega⟩
    have ha := hspace a List.mem_cons_self
    cases names with
    | nil =>
      have hne : a ≠ [] := by simpa using hlast
      have hjoin : ([a].intersperse (str " ")).flatten = a := by simp
      rw [hjoin,devlinkNames,strchr_eq_none ha]
      exact if_neg hne
    | cons b names =>
      have hjoin : ((a::b::names).intersperse (str " ")).flatten =
          a ++ chr ' '::((b::names).intersperse (str " ")).flatten := by
        simp [List.intersperse,str,chr]
      rw [hjoin,List.length_append,List.length_cons] at hfuel
      have hrest : devlinkNames fuel ((b::names).intersperse (str " ")).flatten = b::names :=
        ih (fun n hn => hspace n (List.mem_cons_of_mem _ hn)) (by simpa using hlast) (by omega)
      rw [hjoin,devlinkNames,strchr_append ha]
      simp only [takeWhile_ne ha,List.drop_one,List.tail_cons,hrest]

theorem tagNames_join {names : List CString} (hcolon : ∀ n ∈ names, chr ':' ∉ n) {fuel : ℕ}
    (hfuel : names.length < fuel) : tagNames fuel (names.flatMap (· ++ [chr ':'])) = names := by
  induction names generalizing fuel with
  | nil =>
    obtain ⟨fuel,rfl⟩ : ∃ m, fuel = m+1 := ⟨fuel-1,by omega⟩
    rfl
  | cons a names ih =>
    rw [List.length_cons] at hfuel
    obtain ⟨fuel,rfl⟩ : ∃ m, fuel = m+1 := ⟨fuel-1,by omega⟩
    have ha := hcolon a List.mem_cons_self
    have hjoin : (a::names).flatMap (· ++ [chr ':']) = a ++ chr ':'::names.flatMap (· ++ [chr ':']) := by simp
    have hrest : tagNames fuel (names.flatMap (· ++ [chr ':'])) = names :=
      ih (fun n hn => hcolon n (List.mem_cons_of_mem _ hn)) (by omega)
    rw [hjoin,tagNames,strchr_append ha]
    simp only [takeWhile_ne ha,List.drop_one,List.tail_cons,hrest]

end Lists

/-- A device whose properties say its values, in the way in which the library writes them. -/
structure Sendable (d : Device) : Prop where
  sorted : d.sync.propertiesList.Sorted
  current : Current d
  property : ∀ e ∈ d.sync.propertiesList, Public e.name → chr '=' ∉ e.name ∧ 0 ∉ e.name ∧
    ∃ value, e.value = some value ∧ 0 ∉ value ∧ (e.name ∉ knownKeys → value ≠ [])
  devpath : d.propertyValue (str "DEVPATH") = some d.devpath ∧ d.devpath.length+4 < utilPathSize
  subsystem : d.propertyValue (str "SUBSYSTEM") = d.subsystem ∧ d.subsystem.isSome = true
  devtype : d.propertyValue (str "DEVTYPE") = d.devtype
  devnode : d.propertyValue (str "DEVNAME") = d.devnode ∧ ∀ node ∈ d.devnode, charAt node 0 = chr '/'
  driver : d.propertyValue (str "DRIVER") = d.driver
  action : d.propertyValue (str "ACTION") = d.action.map (·.name)
  seqnum : d.seqnum < 2^64 ∧ (d.propertyValue (str "SEQNUM") = some (printNat d.seqnum) ∨
    d.propertyValue (str "SEQNUM") = none ∧ d.seqnum = 0)
  ifindex : -2^31 ≤ d.ifindex ∧ d.ifindex < 2^31 ∧
    (d.propertyValue (str "IFINDEX") = some (printNat (d.ifindex % 2^32).toNat) ∨
      d.propertyValue (str "IFINDEX") = none ∧ d.ifindex = 0)
  devnum : d.propertyValue (str "MAJOR") = none ∧ d.propertyValue (str "MINOR") = none ∧ d.devnum = 0 ∨
    d.propertyValue (str "MAJOR") = some (printNat (major d.devnum).toNat) ∧
      d.propertyValue (str "MINOR") = some (printNat (minor d.devnum).toNat) ∧
      0 < (major d.devnum).toNat ∧ (major d.devnum).toNat < 2^31
  mode : ∀ value ∈ d.propertyValue (str "DEVMODE"), ∃ n, n ≤ 511 ∧ value = printMode n
  owner : ∀ key ∈ [str "DEVUID",str "DEVGID"], ∀ value ∈ d.propertyValue key, ∃ n, n < 2^32 ∧ value = printNat n
  links : d.devlinksList.Sorted
  devlinks : d.propertyValue (str "DEVLINKS") =
    if d.devlinksList = [] then none else some (devlinksValue d.devlinksList)
  link : ∀ e ∈ d.devlinksList, chr ' ' ∉ e.name
  someLink : d.devlinksList.map (·.name) ≠ [[]]
  linksFit : ((d.devlinksList.map (·.name)).intersperse (str " ")).flatten.length < utilPathSize
  tagsSorted : d.tagsList.Sorted
  tags : d.propertyValue (str "TAGS") = if d.tagsList = [] then none else some (tagsValue d.tagsList)
  tag : ∀ e ∈ d.tagsList, chr ':' ∉ e.name ∧ chr ' ' ∉ e.name
  tagsFit : (str ":" ++ (d.tagsList.map (·.name)).flatMap (· ++ [chr ':'])).length < utilPathSize

section Sendable

variable {d : Device}

theorem get_filter {l : UdevList} (hl : ∀ e ∈ l, Public e.name → e.value.isSome = true) {key : CString}
    (hkey : Public key) :
    SortedMap.get ((l.filter fun e => Public e.name).map fun e => (e.name,e.value.getD [])) key =
      (l.getByName key).bind (·.value) := by
  induction l with
  | nil => rfl
  | cons e l ih =>
    have hrest := ih fun x hx => hl x (List.mem_cons_of_mem _ hx)
    by_cases hname : e.name = key
    · have hpublic : Public e.name := hname ▸ hkey
      obtain ⟨value,hvalue⟩ := Option.isSome_iff_exists.mp (hl e List.mem_cons_self hpublic)
      rw [List.filter_cons_of_pos (by simpa using hpublic),List.map_cons,SortedMap.get_cons,if_pos hname,
        UdevList.getByName,List.find?_cons_of_pos (by simpa using hname),hvalue]
      exact hvalue.symm
    · rw [UdevList.getByName,List.find?_cons_of_neg (by simpa using hname),← UdevList.getByName,← hrest]
      by_cases hpublic : Public e.name
      · rw [List.filter_cons_of_pos (by simpa using hpublic),List.map_cons,SortedMap.get_cons,if_neg hname]
      · rw [List.filter_cons_of_neg (by simpa using hpublic)]

theorem Sendable.get_sent (hd : Sendable d) {key : CString} (hkey : Public key) :
    SortedMap.get (sent d) key = d.propertyValue key := by
  refine get_filter ?_ hkey
  intro e he hpublic
  obtain ⟨-,-,value,hvalue,-⟩ := hd.property e he hpublic
  rw [hvalue]
  rfl

theorem Sendable.sorted_sent (hd : Sendable d) : SortedMap.Sorted (sent d) :=
  List.pairwise_map.mpr (hd.sorted.filter fun e => Public e.name)

theorem Sendable.nodup_sent (hd : Sendable d) : ((sent d).map (·.1)).Nodup := by
  refine List.pairwise_map.mpr (hd.sorted_sent.imp ?_)
  intro a b hlt heq
  rw [heq] at hlt
  exact List.lt_irrefl _ hlt

theorem flatten_tags (l : UdevList) :
    (l.flatMap fun e => [e.name,str ":"]).flatten = (l.map (·.name)).flatMap (· ++ [chr ':']) := by
  induction l with
  | nil => rfl
  | cons e l ih =>
    rw [List.flatMap_cons,List.flatten_append,ih]
    simp [str,chr]

theorem Sendable.tagsValue (hd : Sendable d) :
    tagsValue d.tagsList = chr ':'::(d.tagsList.map (·.name)).flatMap (· ++ [chr ':']) := by
  have hflat : (str ":"::d.tagsList.flatMap fun e => [e.name,str ":"]).flatten =
      str ":" ++ (d.tagsList.map (·.name)).flatMap (· ++ [chr ':']) := by
    rw [List.flatten_cons,flatten_tags]
  rw [Device.tagsValue,strscpyl_fits (by rw [hflat]; exact hd.tagsFit),hflat]
  rfl

theorem Sendable.devlinksValue (hd : Sendable d) :
    devlinksValue d.devlinksList = ((d.devlinksList.map (·.name)).intersperse (str " ")).flatten :=
  strscpyl_fits hd.linksFit

theorem length_le_flatMap (names : List CString) : names.length ≤ (names.flatMap (· ++ [chr ':'])).length := by
  induction names with
  | nil => exact Nat.le_refl 0
  | cons n names ih =>
    rw [List.flatMap_cons,List.length_append,List.length_append,List.length_cons,List.length_singleton]
    omega

theorem Sendable.tagNames (hd : Sendable d) :
    tagNames (Device.tagsValue d.tagsList).length ((Device.tagsValue d.tagsList).drop 1) = d.tagsList.map (·.name) := by
  rw [hd.tagsValue,List.drop_one,List.tail_cons]
  refine tagNames_join ?_ (Nat.lt_succ_of_le (length_le_flatMap _))
  intro n hn
  obtain ⟨e,he,rfl⟩ := List.mem_map.mp hn
  exact (hd.tag e he).1

theorem Sendable.devlinkNames (hd : Sendable d) :
    devlinkNames ((Device.devlinksValue d.devlinksList).length+1) (Device.devlinksValue d.devlinksList) =
      d.devlinksList.map (·.name) := by
  rw [hd.devlinksValue]
  refine devlinkNames_join ?_ ?_ (Nat.lt_succ_self _)
  · intro n hn
    obtain ⟨e,he,rfl⟩ := List.mem_map.mp hn
    exact hd.link e he
  · intro hlast
    obtain ⟨names,hnames⟩ := List.getLast?_eq_some_iff.mp hlast
    have hsorted : (d.devlinksList.map (·.name)).Pairwise (· < ·) := List.pairwise_map.mpr hd.links
    rw [hnames] at hsorted
    cases names with
    | nil => exact hd.someLink hnames
    | cons n names =>
      have hlt : n < [] := (List.pairwise_append.mp hsorted).2.2 n List.mem_cons_self [] List.mem_cons_self
      exact absurd hlt (List.not_lt_nil n)

theorem length_le_message (l : List (CString × CString)) : l.length ≤ (message l).length := by
  induction l with
  | nil => exact Nat.le_refl 0
  | cons e l ih =>
    have hmessage : message (e::l) = entry e.1 e.2 ++ [0] ++ message l := List.flatMap_cons
    rw [hmessage,List.length_append,List.length_append,List.length_cons,List.length_singleton]
    omega

theorem Sendable.entryOk (hd : Sendable d) (hfits : ∀ e ∈ sent d, (entry e.1 e.2).length < 4096) :
    ∀ e ∈ sent d, EntryOk e.1 e.2 := by
  rintro ⟨name,value⟩ he
  obtain ⟨x,hx,hxe⟩ := List.mem_map.mp he
  obtain ⟨hx,hpublic⟩ := List.mem_filter.mp hx
  obtain ⟨hequals,hnul,v,hv,hvnul,hother⟩ := hd.property x hx (by simpa using hpublic)
  obtain ⟨rfl,rfl⟩ : x.name = name ∧ v = value := by
    rw [hv] at hxe
    exact Prod.mk.inj hxe
  have hvalue : d.propertyValue x.name = some v := by
    rw [← hd.get_sent (by simpa using hpublic)]
    exact hd.sorted_sent.get_of_mem he
  have hentry : 0 ∉ entry x.name v := by
    simp only [entry,List.mem_append,not_or]
    exact ⟨⟨hnul,by decide⟩,hvnul⟩
  have hsome : ∀ {key : CString} {o : Option CString}, x.name = key → d.propertyValue key = o → o = some v := by
    rintro key o rfl ho
    exact ho.symm.trans hvalue
  refine ⟨hentry,hequals,hfits _ he,?_,?_,?_,?_,?_,?_,?_,?_,?_,hother⟩
  · intro hname
    obtain rfl := Option.some.inj (hsome hname hd.devpath.1)
    exact hd.devpath.2
  · intro hname
    exact hd.devnode.2 v (hsome hname hd.devnode.1)
  · intro hname
    obtain ⟨a,-,ha⟩ := Option.map_eq_some_iff.mp (hsome hname hd.action)
    exact ⟨a,ha.symm⟩
  · intro hname
    obtain ⟨hrange,hseq | ⟨hnone,-⟩⟩ := hd.seqnum
    · exact ⟨d.seqnum,hrange,(Option.some.inj (hsome hname hseq)).symm⟩
    · cases hsome hname hnone
  · intro hname
    obtain ⟨-,-,hindex | ⟨hnone,-⟩⟩ := hd.ifindex
    · exact ⟨_,by omega,(Option.some.inj (hsome hname hindex)).symm⟩
    · cases hsome hname hnone
  · intro hname
    exact hd.mode v (hsome hname rfl)
  · rintro (hname | hname)
    · exact hd.owner _ (by simp) v (hsome hname rfl)
    · exact hd.owner _ (by simp) v (hsome hname rfl)
  · intro hname
    have hlinks := hsome hname hd.devlinks
    split_ifs at hlinks
    cases hlinks
    rw [hd.devlinksValue]
    exact hd.linksFit
  · intro hname
    have htags := hsome hname hd.tags
    split_ifs at htags
    cases htags
    refine ⟨?_,by rw [hd.tagsValue]; rfl,?_⟩
    · rw [hd.tagsValue]
      exact hd.tagsFit
    · rw [hd.tagNames]
      intro tag htag
      obtain ⟨e,he,rfl⟩ := List.mem_map.mp htag
      exact (hd.tag e he).2

end Sendable

section Numbers

theorem minor_lt (dev : UInt64) : (minor dev).toNat < 2^32 := by
  rw [minor,UInt64.toNat_or,UInt64.toNat_and,UInt64.toNat_and]
  refine Nat.or_lt_two_pow ?_ ?_
  · exact lt_of_le_of_lt Nat.and_le_right (by decide)
  · exact lt_of_le_of_lt Nat.and_le_right (by decide)

theorem ofNat_strtoint {n : UInt64} (h : n.toNat < 2^32) :
    UInt64.ofNat (strtoint (printNat n.toNat) % 2^32).toNat = n := by
  rw [strtoint_printNat (by omega),toInt32_emod,Nat.mod_eq_of_lt h,UInt64.ofNat_toNat]

end Numbers

section Received

variable {d : Device}

/-- What the fields of the device are before the first string. -/
def start (global : UdevList) : View := view { dev := { propertiesList := global } }

theorem Sendable.field (hd : Sendable d) (global : UdevList) {δ : Type} (p : View → δ) (key : CString)
    (g : δ → CString → δ) (hkey : Public key)
    (hstep : ∀ (v : View) (e : CString × CString), p (v.step e.1 e.2) = if e.1 = key then g (p v) e.2 else p v) :
    p ((sent d).foldl (fun v e => v.step e.1 e.2) (start global)) =
      (d.propertyValue key).elim (p (start global)) (g (p (start global))) := by
  rw [← hd.get_sent hkey]
  exact foldl_key p key g hstep hd.nodup_sent _

theorem Sendable.text (hd : Sendable d) (global : UdevList) (p : View → Option CString) (key : CString)
    (hkey : Public key)
    (hstep : ∀ (v : View) (e : CString × CString), p (v.step e.1 e.2) = if e.1 = key then some e.2 else p v)
    (hstart : p (start global) = none) :
    p ((sent d).foldl (fun v e => v.step e.1 e.2) (start global)) = d.propertyValue key := by
  rw [hd.field global p key (fun _ value => some value) hkey hstep,hstart]
  cases d.propertyValue key <;> rfl

theorem Sendable.actionField (hd : Sendable d) (global : UdevList) :
    ((sent d).foldl (fun v e => v.step e.1 e.2) (start global)).action = d.action := by
  rw [hd.field global View.action (str "ACTION") (fun _ value => actionOf value) (by decide) fun _ _ => rfl,hd.action]
  cases d.action with
  | none => rfl
  | some a => exact actionOf_name a

theorem Sendable.seqnumField (hd : Sendable d) (global : UdevList) :
    ((sent d).foldl (fun v e => v.step e.1 e.2) (start global)).seqnum = d.seqnum := by
  rw [hd.field global View.seqnum (str "SEQNUM") (fun _ value => (strtoul 10 value).1) (by decide) fun _ _ => rfl]
  obtain ⟨hrange,hvalue | ⟨hvalue,hzero⟩⟩ := hd.seqnum
  · rw [hvalue,Option.elim_some,strtoul_printNat hrange]
  · rw [hvalue,hzero]
    rfl

theorem Sendable.ifindexField (hd : Sendable d) (global : UdevList) :
    ((sent d).foldl (fun v e => v.step e.1 e.2) (start global)).ifindex = d.ifindex := by
  rw [hd.field global View.ifindex (str "IFINDEX") (fun _ value => strtoint value) (by decide) fun _ _ => rfl]
  obtain ⟨hlow,hhigh,hvalue | ⟨hvalue,hzero⟩⟩ := hd.ifindex
  · have hnat : ((d.ifindex % 2^32).toNat : ℤ) = d.ifindex % ((2^32 : ℕ) : ℤ) := by omega
    rw [hvalue,Option.elim_some,strtoint_printNat (by omega),toInt32,hnat,Int.emod_bmod]
    exact toInt32_eq hlow hhigh
  · rw [hvalue,hzero]
    rfl

theorem Sendable.devlinksField (hd : Sendable d) (global : UdevList) :
    ((sent d).foldl (fun v e => v.step e.1 e.2) (start global)).devlinks =
      d.devlinksList.map fun e => (⟨e.name,none,0⟩ : ListEntry) := by
  rw [hd.field global View.devlinks (str "DEVLINKS") (fun l value =>
    (Device.devlinkNames (value.length+1) value).foldl (fun (l : UdevList) n => l.add n none) l) (by decide) fun _ _ => rfl,
    hd.devlinks]
  split_ifs with hnil
  · rw [hnil]
    rfl
  · rw [Option.elim_some,hd.devlinkNames,List.foldl_map]
    exact hd.links.foldl_add

theorem Sendable.tagsField (hd : Sendable d) (global : UdevList) :
    ((sent d).foldl (fun v e => v.step e.1 e.2) (start global)).tags =
      d.tagsList.map fun e => (⟨e.name,none,0⟩ : ListEntry) := by
  rw [hd.field global View.tags (str "TAGS") (fun l value =>
    (Device.tagNames value.length (value.drop 1)).foldl (fun (l : UdevList) n => l.add n none) l) (by decide) fun _ _ => rfl,
    hd.tags]
  split_ifs with hnil
  · rw [hnil]
    rfl
  · rw [Option.elim_some,hd.tagNames,List.foldl_map]
    exact hd.tagsSorted.foldl_add

theorem Sendable.numberFields (hd : Sendable d) (global : UdevList) :
    let w := (sent d).foldl (fun v e => v.step e.1 e.2) (start global)
    w.maj = (d.propertyValue (str "MAJOR")).elim 0 strtoint ∧ w.min = (d.propertyValue (str "MINOR")).elim 0 strtoint :=
  ⟨hd.field global View.maj (str "MAJOR") (fun _ value => strtoint value) (by decide) fun _ _ => rfl,
    hd.field global View.min (str "MINOR") (fun _ value => strtoint value) (by decide) fun _ _ => rfl⟩

/-- What `udev_device_get_property_value` reports of a device with the properties of a key and
the lists. -/
theorem propertyValue_devlinks {d : Device} (hup : d.devlinksUptodate = false) :
    d.propertyValue (str "DEVLINKS") =
      if d.devlinksList = [] then d.lookup (str "DEVLINKS") else some (Device.devlinksValue d.devlinksList) := by
  have htags : ∀ d : Device, d.syncTags.lookup (str "DEVLINKS") = d.lookup (str "DEVLINKS") := by
    intro d
    unfold syncTags
    split_ifs
    · rfl
    · rfl
    · exact lookup_setProperty_ne _ (by decide)
  rw [propertyValue,sync,htags,syncDevlinks,if_neg (by simp [hup])]
  split_ifs
  · rfl
  · exact lookup_setProperty_self _ _ _

theorem propertyValue_tags {d : Device} (hup : d.tagsUptodate = false) :
    d.propertyValue (str "TAGS") =
      if d.tagsList = [] then d.lookup (str "TAGS") else some (Device.tagsValue d.tagsList) := by
  have hlinks : d.syncDevlinks.lookup (str "TAGS") = d.lookup (str "TAGS") ∧
      d.syncDevlinks.tagsList = d.tagsList ∧ d.syncDevlinks.tagsUptodate = false := by
    unfold syncDevlinks
    split_ifs
    · exact ⟨rfl,rfl,hup⟩
    · exact ⟨rfl,rfl,hup⟩
    · exact ⟨lookup_setProperty_ne _ (by decide),rfl,hup⟩
  obtain ⟨hlookup,hlist,hflag⟩ := hlinks
  rw [propertyValue,sync,syncTags,if_neg (by simp [hflag]),hlist]
  split_ifs
  · exact hlookup
  · exact lookup_setProperty_self _ _ _

theorem Sendable.lookupField (hd : Sendable d) (value : Option CString) {key : CString} (hkey : Public key)
    (hname : key ∉ derivedKeys) :
    (sent d).foldl (fun v e => if e.1 = key ∧ e.1 ∉ derivedKeys then some e.2 else v) value =
      (d.propertyValue key).or value := by
  have hstep : ∀ (v : Option CString) (e : CString × CString),
      (if e.1 = key ∧ e.1 ∉ derivedKeys then some e.2 else v) = if e.1 = key then some e.2 else v := by
    intro v e
    by_cases he : e.1 = key
    · rw [if_pos ⟨he,he ▸ hname⟩,if_pos he]
    · rw [if_neg fun h => he h.1,if_neg he]
  have hfold := foldl_key id key (fun _ value => some value) hstep hd.nodup_sent value
  rw [hd.get_sent hkey] at hfold
  refine hfold.trans ?_
  cases d.propertyValue key <;> rfl

theorem lookup_derived {l : List (CString × CString)} (value : Option CString) {key : CString}
    (hname : key ∈ derivedKeys) :
    l.foldl (fun v e => if e.1 = key ∧ e.1 ∉ derivedKeys then some e.2 else v) value = value := by
  induction l generalizing value with
  | nil => rfl
  | cons e l ih =>
    rw [List.foldl_cons,if_neg fun h => h.2 (h.1 ▸ hname)]
    exact ih value

theorem Sendable.finish (hd : Sendable d) {global : UdevList} {r : Parsed}
    (hview : view r = (sent d).foldl (fun v e => v.step e.1 e.2) (start global)) (hnum : r.dev.devnum = 0)
    (hpath : r.hasPath = true) (hsubsystem : r.dev.subsystem = d.subsystem) :
    ∃ d', parseFinish r = some d' ∧ view { r with dev := d' } = { view r with devnum := d.devnum } ∧
      ∀ key, d'.lookup key =
        if key = str "MAJOR" ∨ key = str "MINOR" then (d.propertyValue key).or (r.dev.lookup key)
        else r.dev.lookup key := by
  obtain ⟨hmaj,hmin⟩ := hd.numberFields global
  rw [← hview] at hmaj hmin
  have hmaj : r.maj = _ := hmaj
  have hmin : r.min = _ := hmin
  have hsome : d.subsystem ≠ none := Option.isSome_iff_ne_none.mp hd.subsystem.2
  rcases hd.devnum with ⟨hno,hno',hzero⟩ | ⟨hmajor,hminor,hpos,hlt⟩
  · rw [hno,Option.elim_none] at hmaj
    refine ⟨r.dev,?_,?_,?_⟩
    · simp [parseFinish,hmaj,hpath,hsubsystem,hsome]
    · rw [hzero,← hnum]
      rfl
    · intro key
      split_ifs with hkey
      · rcases hkey with rfl | rfl
        · rw [hno]
          rfl
        · rw [hno']
          rfl
      · rfl
  · rw [hmajor,Option.elim_some] at hmaj
    rw [hminor,Option.elim_some] at hmin
    have hgt : r.maj > 0 := by
      rw [hmaj,strtoint_printNat (by omega),toInt32_eq (by omega) (by omega)]
      omega
    have hdev : makedev (.ofNat (r.maj % 2^32).toNat) (.ofNat (r.min % 2^32).toNat) = d.devnum := by
      rw [hmaj,hmin,ofNat_strtoint (by omega),ofNat_strtoint (minor_lt _),makedev_major_minor]
    refine ⟨r.dev.setDevnum d.devnum,?_,rfl,?_⟩
    · have hset : (r.dev.setDevnum d.devnum).subsystem = d.subsystem := hsubsystem
      have hok : ¬(r.hasPath = false ∨ (r.dev.setDevnum d.devnum).subsystem = none) := by simp [hpath,hset,hsome]
      unfold parseFinish
      simp only [if_pos hgt,hdev,if_neg hok]
    · intro key
      split_ifs with hkey
      · rcases hkey with rfl | rfl
        · rw [hmajor]
          exact (lookup_setProperty_ne _ (by decide)).trans (lookup_setProperty_self _ _ _)
        · rw [hminor]
          exact lookup_setProperty_self _ _ _
      · rw [not_or] at hkey
        exact (lookup_setProperty_ne _ hkey.2).trans (lookup_setProperty_ne _ hkey.1)

theorem foldl_const {δ : Type} (p : View → δ) (hstep : ∀ (v : View) (e : CString × CString), p (v.step e.1 e.2) = p v)
    (l : List (CString × CString)) (v : View) : p (l.foldl (fun v e => v.step e.1 e.2) v) = p v := by
  induction l generalizing v with
  | nil => rfl
  | cons e l ih => rw [List.foldl_cons,ih,hstep]

theorem Sendable.fields (hd : Sendable d) (global : UdevList) :
    let w := (sent d).foldl (fun v e => v.step e.1 e.2) (start global)
    w.devpath = some d.devpath ∧ w.subsystem = d.subsystem ∧ w.devtype = d.devtype ∧ w.devnode = d.devnode ∧
      w.driver = d.driver ∧ w.devnum = 0 ∧ w.uptodate = false := by
  refine ⟨?_,?_,?_,?_,?_,?_,?_⟩
  · rw [hd.text global View.devpath (str "DEVPATH") (by decide) (fun _ _ => rfl) rfl,hd.devpath.1]
  · rw [hd.text global View.subsystem (str "SUBSYSTEM") (by decide) (fun _ _ => rfl) rfl,hd.subsystem.1]
  · rw [hd.text global View.devtype (str "DEVTYPE") (by decide) (fun _ _ => rfl) rfl,hd.devtype]
  · rw [hd.text global View.devnode (str "DEVNAME") (by decide) (fun _ _ => rfl) rfl,hd.devnode.1]
  · rw [hd.text global View.driver (str "DRIVER") (by decide) (fun _ _ => rfl) rfl,hd.driver]
  · exact foldl_const View.devnum (fun _ _ => rfl) _ _
  · exact foldl_const View.uptodate (fun _ _ => rfl) _ _

theorem devlinksValue_names {l l' : UdevList} (h : l.map (·.name) = l'.map (·.name)) :
    Device.devlinksValue l = Device.devlinksValue l' := by
  rw [Device.devlinksValue,Device.devlinksValue,h]

theorem tagsValue_names {l l' : UdevList} (h : l.map (·.name) = l'.map (·.name)) :
    Device.tagsValue l = Device.tagsValue l' := by
  have hparts : ∀ l : UdevList, (l.flatMap fun e => [e.name,str ":"]) = (l.map (·.name)).flatMap fun n => [n,str ":"] :=
    fun l => by rw [List.flatMap_map]
  rw [Device.tagsValue,Device.tagsValue,hparts,hparts,h]

theorem map_name (l : UdevList) : (l.map fun e => (⟨e.name,none,0⟩ : ListEntry)).map (·.name) = l.map (·.name) := by
  rw [List.map_map]
  rfl

/-- The properties of a device that was received, with those of the library context. -/
theorem Sendable.propertyValue (hd : Sendable d) {global : UdevList} {d' : Device} {key : CString}
    (hkey : Public key)
    (hlookup : d'.lookup key = if key ∈ [str "DEVLINKS",str "TAGS"] then (global.getByName key).bind (·.value)
      else (d.propertyValue key).or ((global.getByName key).bind (·.value)))
    (hup : d'.devlinksUptodate = false ∧ d'.tagsUptodate = false)
    (hlinks : d'.devlinksList = d.devlinksList.map fun e => (⟨e.name,none,0⟩ : ListEntry))
    (htags : d'.tagsList = d.tagsList.map fun e => (⟨e.name,none,0⟩ : ListEntry)) :
    d'.propertyValue key = (d.propertyValue key).or ((global.getByName key).bind (·.value)) := by
  by_cases hl : key = str "DEVLINKS"
  · subst hl
    rw [if_pos (by decide)] at hlookup
    rw [propertyValue_devlinks hup.1,hd.devlinks,hlinks,hlookup,devlinksValue_names (map_name d.devlinksList)]
    simp only [List.map_eq_nil_iff]
    split_ifs <;> rfl
  · by_cases ht : key = str "TAGS"
    · subst ht
      rw [if_pos (by decide)] at hlookup
      rw [propertyValue_tags hup.2,hd.tags,htags,hlookup,tagsValue_names (map_name d.tagsList)]
      simp only [List.map_eq_nil_iff]
      split_ifs <;> rfl
    · rw [propertyValue_plain ⟨hl,ht⟩ d',hlookup,if_neg (by simp [hl,ht])]

end Received

/-- The round trip of a message. -/
theorem receive_monitorBuf {d : Device} (hd : Sendable d) {buf : List UInt8} (hbuf : monitorBuf d = some buf)
    (global : UdevList) (behind : List UInt8) :
    ∃ d', receive global behind buf = some d' ∧
      d'.devpath = d.devpath ∧ d'.subsystem = d.subsystem ∧ d'.devtype = d.devtype ∧ d'.devnode = d.devnode ∧
      d'.devnum = d.devnum ∧ d'.action = d.action ∧ d'.driver = d.driver ∧ d'.seqnum = d.seqnum ∧
      d'.ifindex = d.ifindex ∧ d'.devlinksList.map (·.name) = d.devlinksList.map (·.name) ∧
      d'.tagsList.map (·.name) = d.tagsList.map (·.name) ∧
      ∀ key, Public key → key ≠ str "USEC_INITIALIZED" →
        d'.propertyValue key = (d.propertyValue key).or ((global.getByName key).bind (·.value)) := by
  obtain ⟨rfl,hfits⟩ := monitorBuf_sent hd.current hbuf
  obtain ⟨r,hr⟩ : ∃ r, parseStrings behind (message (sent d)).length (message (sent d))
      { dev := { propertiesList := global } } = r := ⟨_,rfl⟩
  obtain ⟨hview,hlookup⟩ := view_parseStrings (hd.entryOk hfits) behind (length_le_message _)
    (rfl : (view { dev := { propertiesList := global } }).uptodate = false)
  rw [hr] at hview hlookup
  change view r = (sent d).foldl (fun v e => v.step e.1 e.2) (start global) at hview
  obtain ⟨hdevpath,hsubsystem,hdevtype,hdevnode,hdriver,hnum,huptodate⟩ := hd.fields global
  have haction := hd.actionField global
  have hseqnum := hd.seqnumField global
  have hifindex := hd.ifindexField global
  have hlinks := hd.devlinksField global
  have htags := hd.tagsField global
  rw [← hview] at hdevpath hsubsystem hdevtype hdevnode hdriver hnum huptodate haction hseqnum hifindex hlinks htags
  have hpath : r.hasPath = true := by
    by_contra hno
    simp [view,hno] at hdevpath
  obtain ⟨d',hfinish,hsame,hnumbers⟩ := hd.finish hview hnum hpath hsubsystem
  have hpath' : d'.devpath = d.devpath := by
    have hsome : (view { r with dev := d' }).devpath = some d.devpath := by rw [hsame]; exact hdevpath
    simpa [view,hpath] using hsome
  have hup : d'.devlinksUptodate = false ∧ d'.tagsUptodate = false := by
    have hor : (view { r with dev := d' }).uptodate = false := by rw [hsame]; exact huptodate
    simpa [view] using hor
  have hlinks' : d'.devlinksList = _ := (congrArg View.devlinks hsame).trans hlinks
  have htags' : d'.tagsList = _ := (congrArg View.tags hsame).trans htags
  refine ⟨d',?_,hpath',(congrArg View.subsystem hsame).trans hsubsystem,(congrArg View.devtype hsame).trans hdevtype,
    (congrArg View.devnode hsame).trans hdevnode,congrArg View.devnum hsame,(congrArg View.action hsame).trans haction,
    (congrArg View.driver hsame).trans hdriver,(congrArg View.seqnum hsame).trans hseqnum,
    (congrArg View.ifindex hsame).trans hifindex,?_,?_,?_⟩
  · rw [receive,hr,hfinish]
  · rw [hlinks',map_name]
  · rw [htags',map_name]
  · intro key hkey husec
    refine hd.propertyValue hkey ?_ hup hlinks' htags'
    have hglobal : ({ propertiesList := global } : Device).lookup key = (global.getByName key).bind (·.value) := rfl
    rw [hnumbers,hlookup key husec,hglobal]
    by_cases hderived : key ∈ derivedKeys
    · rw [lookup_derived _ hderived]
      simp only [derivedKeys,List.mem_cons,List.not_mem_nil,or_false] at hderived
      rcases hderived with rfl | rfl | rfl | rfl | rfl
      · rw [if_neg (by decide),if_pos (by decide)]
      · rw [if_neg (by decide),if_pos (by decide)]
      · rw [if_pos (by decide),if_neg (by decide)]
      · rw [if_pos (by decide),if_neg (by decide)]
      · exact absurd rfl husec
    · have hno : ∀ name ∈ derivedKeys, key ≠ name := fun name hname heq => hderived (heq ▸ hname)
      rw [if_neg (by simp [hno (str "MAJOR") (by decide),hno (str "MINOR") (by decide)]),
        if_neg (by simp [hno (str "DEVLINKS") (by decide),hno (str "TAGS") (by decide)]),
        hd.lookupField _ hkey hderived]

/-- A loop device before anything else is known of it. -/
def loopDevice : Device where
  devpath := str "/devices/virtual/block/loop0"
  subsystem := some (str "block")
  propertiesList :=
    [⟨str "DEVPATH",some (str "/devices/virtual/block/loop0"),0⟩,⟨str "SUBSYSTEM",some (str "block"),0⟩]

/-- The loop device with some of everything. -/
def addedLoop : Device :=
  let d := { loopDevice with action := some .add, devnode := some (str "/dev/loop0"), seqnum := 2187, devnum := 0x700 }
  let d := (d.setProperty (str "ACTION") (str "add")).setProperty (str "DEVNAME") (str "/dev/loop0")
  let d := (d.setProperty (str "SEQNUM") (str "2187")).setProperty (str "MAJOR") (str "7")
  let d := (d.setProperty (str "MINOR") (str "0")).setProperty (str "DEVMODE") (str "0660")
  let d := (d.setProperty (str "ID_FS_TYPE") (str "ext4")).setProperty (str ".PRIVATE") (str "x")
  ((d.addDevlink (str "/dev/disk/by-label/root")).addDevlink (str "/dev/root")).addTag (str "seat")

theorem sendable_addedLoop : Sendable addedLoop where
  sorted := by unfold UdevList.Sorted; decide +kernel
  current := by
    intro hup
    cases hup
  property := by
    have hvalue : ∀ e ∈ addedLoop.sync.propertiesList, chr '=' ∉ e.name ∧ 0 ∉ e.name ∧ e.value.isSome = true ∧
        0 ∉ e.value.getD [] ∧ e.value.getD [] ≠ [] := by decide +kernel
    intro e he _
    obtain ⟨hequals,hnul,hsome,hnul',hne⟩ := hvalue e he
    obtain ⟨value,hv⟩ := Option.isSome_iff_exists.mp hsome
    rw [hv,Option.getD_some] at hnul' hne
    exact ⟨hequals,hnul,value,hv,hnul',fun _ => hne⟩
  devpath := by decide +kernel
  subsystem := by decide +kernel
  devtype := by decide +kernel
  devnode := ⟨by decide +kernel,by
    rintro node ⟨⟩
    decide⟩
  driver := by decide +kernel
  action := by decide +kernel
  seqnum := ⟨by decide +kernel,Or.inl (by decide +kernel)⟩
  ifindex := ⟨by decide,by decide,Or.inr (by decide +kernel)⟩
  devnum := Or.inr (by decide +kernel)
  mode := by
    have hmode : addedLoop.propertyValue (str "DEVMODE") = some (str "0660") := by decide +kernel
    rw [hmode]
    rintro value ⟨⟩
    exact ⟨432,by decide,by decide +kernel⟩
  owner := by
    have howner : ∀ key ∈ [str "DEVUID",str "DEVGID"], addedLoop.propertyValue key = none := by decide +kernel
    intro key hkey value hvalue
    rw [howner key hkey] at hvalue
    cases hvalue
  links := by unfold UdevList.Sorted; decide +kernel
  devlinks := by decide +kernel
  link := by decide +kernel
  someLink := by decide +kernel
  linksFit := by decide +kernel
  tagsSorted := by unfold UdevList.Sorted; decide +kernel
  tags := by decide +kernel
  tag := by decide +kernel
  tagsFit := by decide +kernel

theorem receive_monitorBuf_loop : ∃ buf d', monitorBuf addedLoop = some buf ∧ receive [] [] buf = some d' ∧
    d'.devnum = 0x700 ∧ d'.devlinksList.map (·.name) = [str "/dev/disk/by-label/root",str "/dev/root"] ∧
    d'.propertyValue (str "ID_FS_TYPE") = some (str "ext4") := by
  obtain ⟨buf,hbuf⟩ : ∃ buf, monitorBuf addedLoop = some buf :=
    Option.isSome_iff_exists.mp (by decide +kernel)
  obtain ⟨d',hd',-,-,-,-,hnum,-,-,-,-,hlinks,-,hvalue⟩ := receive_monitorBuf sendable_addedLoop hbuf [] []
  refine ⟨buf,d',hbuf,hd',hnum,hlinks.trans (by decide +kernel),?_⟩
  rw [hvalue _ (by decide) (by decide)]
  decide +kernel

/-- A device as a client receives it that has no properties of its own. -/
def roundTrip (d : Device) : Option Device := (monitorBuf d).bind (receive [] [])

/-- What does not arrive: the first digits of the time, an empty value, a name with an equal
sign, a value that no property says, a device without a subsystem, a link with a space, links
and tags and a path that do not fit, a link that was added after the strings were made, a
number without a major, and the other bits of a mode. -/
theorem message_gaps :
    (roundTrip (Database.setUsecInitialized loopDevice 123456)).map (·.usecInitialized) = some 3456 ∧
    (roundTrip (loopDevice.setProperty (str "ID_BUS") [])).map (·.propertyValue (str "ID_BUS")) = some none ∧
    (roundTrip (loopDevice.setProperty (str "A=B") (str "c"))).map (·.propertyValue (str "A=B")) = some none ∧
    (roundTrip { loopDevice with driver := some (str "loop") }).map (·.driver) = some none ∧
    roundTrip (({ devpath := str "/bus" } : Device).setProperty (str "DEVPATH") (str "/bus")) = none ∧
    (roundTrip (loopDevice.addDevlink (str "/dev/a b"))).map (·.devlinksList.map (·.name)) =
      some [str "/dev/a",str "b"] ∧
    (roundTrip (loopDevice.addDevlink [])).map (·.devlinksList) = some [] ∧
    (roundTrip (loopDevice.addDevlink (str "/dev/" ++ List.replicate 1019 (chr 'a')))).map
      (·.devlinksList.map (·.name.length)) = some [1023] ∧
    (roundTrip (loopDevice.addTag (List.replicate 1022 (chr 'a')))).map (·.tagsList) = some [] ∧
    (roundTrip (loopDevice.setSyspath (str "/sys/" ++ List.replicate 1019 (chr 'a')))).map (·.devpath.length) =
      some 1019 ∧
    (roundTrip (loopDevice.propertiesEnvp.2.addDevlink (str "/dev/root"))).map (·.devlinksList) = some [] ∧
    (roundTrip (loopDevice.setDevnum (makedev 0 5))).map (·.devnum) = some 0 ∧
    (roundTrip (loopDevice.setProperty (str "DEVMODE") (str "01777"))).map (·.propertyValue (str "DEVMODE")) =
      some (some (str "0777")) := by
  decide +kernel

end Receive
end Udev
