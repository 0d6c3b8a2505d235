import Udev.HwdbImport
import Udev.HwdbPriority

/-! The builtin command `hwdb`: it looks up a device and its parents in the index that
`udevadm hwdb` makes of the text files, and adds what it finds to the properties of the device. -/
namespace Udev
namespace Hwdb

open RadixTree CString Text

/-- What the search reads of a device. The device that gets the properties reads its own ones. -/
structure HwDevice where
  own : Bool := false
  subsystem : Option CString
  devtype : Option CString := none
  modalias : Option CString := none
  idVendor : Option CString := none
  idProduct : Option CString := none

/-- `udev_device_get_property_value` of `MODALIAS`, and the device that gets the properties. -/
def HwDevice.read (d : HwDevice) (dev : Device) : Option CString × Device :=
  if d.own then (dev.propertyValue (str "MODALIAS"),dev.sync) else (d.modalias,dev)

/-- `strtol` with base 16. -/
def strtolHex (s : CString) : ℤ :=
  let t := s.dropWhile isspace
  let neg := charAt t 0 = chr '-'
  let t := if charAt t 0 = chr '-' ∨ charAt t 0 = chr '+' then t.drop 1 else t
  let hex := charAt t 0 = chr '0' ∧ (charAt t 1 = chr 'x' ∨ charAt t 1 = chr 'X') ∧ digitValue (charAt t 2) < 16
  let v := (scanDigits 16 0 (if hex then t.drop 2 else t)).1
  if neg then max (-2^63) (-v) else min v (2^63-1)

/-- `"%04X"`. -/
def printHex4 (v : ℕ) : CString :=
  let digits := (Nat.toDigits 16 v).map fun c => chr c.toUpper
  List.replicate (4-digits.length) (chr '0') ++ digits

def modaliasUsb (d : HwDevice) : Option CString :=
  d.idVendor.bind fun v => d.idProduct.bind fun p =>
    let vn := toInt32 (strtolHex v)
    if vn ≤ 0 then none
    else
      let pn := toInt32 (strtolHex p)
      if pn ≤ 0 then none
      else some ((str "usb:v" ++ printHex4 vn.toNat ++ str "p" ++ printHex4 pn.toNat ++ str "*").take 15)

/-- `udev_builtin_add_property`. -/
def builtinAddProperty (dev : Device) (e : ListEntry) : Device :=
  e.value.elim (dev.deleteProperty e.name) (dev.importProperty e.name)

/-- The commands that the search works with: the subsystem, the prefix of the lookups and the filter. -/
structure HwOptions where
  subsystem : Option CString := none
  lookupPrefix : Option CString := none
  filter : Option CString := none

section Builtin

variable (fnmatch fnmatchNoescape : CString → CString → Bool) (fuel : ℕ) (hwdb : Option (List UInt8)) (o : HwOptions)

def HwOptions.lets (name : CString) : Bool := o.filter.all (fnmatchNoescape · name)

/-- `udev_builtin_hwdb_lookup`, with the number of properties or an error. -/
def builtinHwdbLookup (dev : Device) (modalias : CString) : Option (ℤ × Device) :=
  hwdb.elim (some (-2,dev)) fun map =>
    (hwdbLookup fnmatch fuel map (o.lookupPrefix.getD [] ++ modalias)).map fun list =>
      let added := list.filter fun e => o.lets fnmatchNoescape e.name
      (added.length,added.foldl builtinAddProperty dev)

def HwDevice.usbDevice (d : HwDevice) : Bool := d.subsystem = some (str "usb") && d.devtype = some (str "usb_device")

def HwDevice.alias (d : HwDevice) (dev : Device) : Option CString :=
  (d.read dev).1.or (if d.usbDevice then modaliasUsb d else none)

def HwOptions.looksAt (d : HwDevice) : Bool :=
  d.subsystem.any fun dsubsys => o.subsystem.all (· = dsubsys)

/-- The loop of `udev_builtin_hwdb_search`, with the result of the last lookup. -/
def builtinHwdbSearch (r : ℤ) (dev : Device) : List HwDevice → Option (ℤ × Device)
  | [] => some (r,dev)
  | d::ds =>
    if o.looksAt d then
      (d.alias dev).elim (if d.usbDevice then some (r,(d.read dev).2) else builtinHwdbSearch r (d.read dev).2 ds)
        fun modalias =>
          (builtinHwdbLookup fnmatch fnmatchNoescape fuel hwdb o (d.read dev).2 modalias).bind fun out =>
            if out.1 > 0 ∨ d.usbDevice then some out else builtinHwdbSearch out.1 out.2 ds
    else builtinHwdbSearch r dev ds

end Builtin

/-- `builtin_hwdb` with its options, its argument and the device of `--device`. -/
def builtinHwdb (fnmatch fnmatchNoescape : CString → CString → Bool) (fuel : ℕ) (hwdb : Option (List UInt8))
    (o : HwOptions) (key : Option CString) (srcdev : Option (List HwDevice)) (dev : Device) : Option (ℕ × Device) :=
  if hwdb.isNone then some (1,dev)
  else
    (key.elim
      (srcdev.elim (some (0,dev)) (builtinHwdbSearch fnmatch fnmatchNoescape fuel hwdb o 0 dev))
      (builtinHwdbLookup fnmatch fnmatchNoescape fuel hwdb o dev)).map fun out => (if out.1 > 0 then 0 else 1,out.2)

section Properties

variable {dev : Device} {name : CString}

theorem importProperty_self (dev : Device) (key value : CString) :
    (dev.importProperty key value).lookup key = some value ∧
      (charAt key 0 ≠ chr '.' → ((dev.importProperty key value).propertiesList.getByName key).map (·.num) = some 1) := by
  have hset := Device.lookup_setProperty_self dev key value
  have hmarked : ((dev.setProperty key value).markStored key).propertiesList.getByName key =
      ((dev.setProperty key value).propertiesList.getByName key).map fun e => { e with num := 1 } :=
    UdevList.getByName_setNum _ _ _
  obtain ⟨e,he,hvalue⟩ := Option.bind_eq_some_iff.mp hset
  unfold Device.importProperty
  dsimp only
  by_cases hkey : charAt key 0 = chr '.'
  · rw [if_neg (not_not.mpr hkey)]
    exact ⟨hset,fun hne => absurd hkey hne⟩
  · rw [if_pos hkey,Device.lookup,hmarked,he]
    exact ⟨hvalue,fun _ => rfl⟩

theorem getByName_importProperty_ne (dev : Device) {key : CString} (value : CString) (h : name ≠ key) :
    (dev.importProperty key value).propertiesList.getByName name = dev.propertiesList.getByName name := by
  have hset : (dev.setProperty key value).propertiesList.getByName name = dev.propertiesList.getByName name :=
    UdevList.getByName_add_ne _ h
  unfold Device.importProperty
  dsimp only
  by_cases hkey : charAt key 0 = chr '.'
  · rw [if_neg (not_not.mpr hkey)]
    exact hset
  · rw [if_pos hkey]
    exact (UdevList.getByName_setNum_ne _ h).trans hset

/-- Entries of different names come to the properties with their values, and are stored unless
their names are private. The other properties stay. -/
theorem foldl_builtinAddProperty {es : UdevList} (hnodup : (es.map (·.name)).Nodup)
    (hvalue : ∀ e ∈ es, e.value.isSome = true) (dev : Device) :
    (∀ e ∈ es, (es.foldl builtinAddProperty dev).lookup e.name = e.value ∧
      (charAt e.name 0 ≠ chr '.' →
        ((es.foldl builtinAddProperty dev).propertiesList.getByName e.name).map (·.num) = some 1)) ∧
    ∀ name, name ∉ es.map (·.name) →
      (es.foldl builtinAddProperty dev).propertiesList.getByName name = dev.propertiesList.getByName name := by
  induction es generalizing dev with
  | nil => exact ⟨by simp,fun _ _ => rfl⟩
  | cons e es ih =>
    obtain ⟨hfirst,hrest⟩ := List.nodup_cons.mp hnodup
    obtain ⟨v,hv⟩ := Option.isSome_iff_exists.mp (hvalue e List.mem_cons_self)
    have hadd : builtinAddProperty dev e = dev.importProperty e.name v := by rw [builtinAddProperty,hv]; rfl
    obtain ⟨hall,hother⟩ := ih hrest (fun x hx => hvalue x (List.mem_cons_of_mem _ hx)) (dev.importProperty e.name v)
    rw [List.foldl_cons,hadd]
    refine ⟨?_,?_⟩
    · intro x hx
      rcases List.mem_cons.mp hx with rfl | hx
      · obtain ⟨hself,hstored⟩ := importProperty_self dev x.name v
        rw [Device.lookup,hother _ hfirst,hv]
        exact ⟨hself,hstored⟩
      · exact hall x hx
    · intro name hname
      rw [List.map_cons,List.mem_cons,not_or] at hname
      rw [hother name hname.2,getByName_importProperty_ne dev v hname.1]

end Properties

section Lookup

variable {fnmatch : CString → CString → Bool} {l : List Insertion}

/-- A lookup finds the names of the keys of all patterns that match, each with the value of such a
pattern. For a string without globs it is the one that comes last. -/
theorem exists_properties (hf : FnmatchSpec fnmatch) (hl : NulFree l)
    (hpattern : ∀ r ∈ l, r.1.length < 2000 ∧ ∀ c ∈ r.1, c < 0x80 ∧ c ≠ chr '\\' ∧ c ≠ chr '[') {version : ℕ}
    (hsmall : (trieStore version (insertAll trieNew l)).length < 2^64) (m : CString) :
    ∃ props : UdevList, (∃ N, ∀ fuel, N ≤ fuel →
        hwdbLookup fnmatch fuel (trieStore version (insertAll trieNew l)) m = some props) ∧
      (props.map (·.name)).Nodup ∧
      (∀ name, name ∈ props.map (·.name) ↔ ∃ r ∈ l, r.2.1 = chr ' '::name ∧ fnmatch r.1 m = true) ∧
      ∀ e ∈ props, ∃ p v, e.value = some v ∧ lastValue l p (chr ' '::e.name) = some v ∧ fnmatch p m = true ∧
        (Literal m → Gives fnmatch l m (chr ' '::e.name) p) := by
  have hback : ∀ r ∈ l, ∀ c ∈ r.1, c ≠ chr '\\' := fun r hr c hc => ((hpattern r hr).2 c hc).2.1
  obtain ⟨adds,hrun,hmem,hranked⟩ : ∃ adds : List (CString × CString), (∃ N, ∀ fuel, N ≤ fuel →
      hwdbLookup fnmatch fuel (trieStore version (insertAll trieNew l)) m = some (adds.foldl hwdbAddProperty [])) ∧
      (∀ kv, kv ∈ adds ↔ ∃ p, lastValue l p kv.1 = some kv.2 ∧ fnmatch p m = true) ∧
      (Literal m → Ranked adds (fun p kv => lastValue l p kv.1 = some kv.2 ∧ fnmatch p m = true) place) := by
    by_cases hm : Literal m
    · obtain ⟨adds,hrun,hranked⟩ := exists_entries hf hl
        (fun r hr => ⟨(hpattern r hr).1,fun c hc => ⟨((hpattern r hr).2 c hc).1,hback r hr c hc⟩⟩) hsmall hm
      exact ⟨adds,hrun,hranked.mem,fun _ => hranked⟩
    · have hharmless := harmless_of_letters (letters_insertAll hl fun r hr c hc =>
        ⟨((hpattern r hr).2 c hc).1,((hpattern r hr).2 c hc).2.2⟩) m
      have hletters : Letters PatternByte (insertAll trieNew l).tree := by
        refine letters_insertAll hl ?_
        intro r hr c hc
        exact ⟨ne_of_mem_of_not_mem hc (hl r hr).1,hback r hr c hc⟩
      have hwithin : Within 1999 (insertAll trieNew l).tree := by
        refine within_insertAll hl ?_
        intro r hr
        have := (hpattern r hr).1
        omega
      obtain ⟨N,hN⟩ := exists_finds hf (by decide) (ordered_insertAll hl) hletters hwithin hharmless
      obtain ⟨adds,hrun,hadds⟩ := hN N le_rfl {} rfl
      refine ⟨adds,⟨N,?_⟩,?_,fun h => absurd h hm⟩
      · intro fuel hfuel
        rw [hwdbLookup_trieStore hl hsmall,trieSearchF_mono hfuel hrun]
        rfl
      · intro kv
        rw [hadds]
        exact exists_congr fun p => and_congr_left' (mem_find_insertAll hl p kv.1 kv.2)
  obtain ⟨hsorted,hnames,-⟩ := foldl_hwdbAddProperty adds
  refine ⟨_,hrun,hsorted.nodup_names,?_,?_⟩
  · intro name
    rw [hnames name]
    constructor
    · rintro ⟨v,hv⟩
      obtain ⟨p,hlast,hmatch⟩ := (hmem _).mp hv
      obtain ⟨r,hr,rfl,hkey⟩ := (lastValue_isSome l p _).mp (by rw [hlast]; rfl)
      exact ⟨r,hr,hkey,hmatch⟩
    · rintro ⟨r,hr,hkey,hmatch⟩
      obtain ⟨v,hv⟩ := Option.isSome_iff_exists.mp ((lastValue_isSome l r.1 (chr ' '::name)).mpr ⟨r,hr,rfl,hkey⟩)
      exact ⟨v,(hmem _).mpr ⟨r.1,hv,hmatch⟩⟩
  · intro e he
    have hget : (adds.foldl hwdbAddProperty []).getByName e.name = some e := by
      obtain ⟨a,b,hsplit⟩ := List.append_of_mem he
      rw [hsplit] at hsorted ⊢
      have hbefore := (List.pairwise_append.mp hsorted).2.2
      exact UdevList.getByName_found rfl (UdevList.ne_of_lt fun x hx => hbefore x hx e List.mem_cons_self)
    have hlast : lastEntry adds (chr ' '::e.name) = e.value := by rw [← getByName_foldl,hget,Option.bind_some]
    obtain ⟨v,hv⟩ : ∃ v, e.value = some v := by
      obtain ⟨w,hw⟩ := (hnames e.name).mp (List.mem_map_of_mem he)
      refine Option.ne_none_iff_exists'.mp ?_
      intro hnone
      exact absurd rfl (lastEntry_eq_none.mp (hlast.trans hnone) _ hw)
    rw [hv] at hlast
    by_cases hm : Literal m
    · obtain ⟨p,hp,hgives⟩ := gives_of_lastEntry hf hback (hranked hm) hlast
      exact ⟨p,v,hv,hp,hgives.2.1,fun _ => hgives⟩
    · obtain ⟨p,hp,hmatch⟩ := (hmem _).mp (mem_of_lastEntry hlast)
      exact ⟨p,v,hv,hp,hmatch,fun h => absurd h hm⟩

end Lookup

/-- The property is in the records of a pattern that matches, and the filter lets it through. -/
def Hit (fnmatch : CString → CString → Bool) (lets : CString → Bool) (l : List Insertion) (m name : CString) : Prop :=
  (∃ r ∈ l, r.2.1 = chr ' '::name ∧ fnmatch r.1 m = true) ∧ lets name = true

/-- What a lookup that finds something does to the properties of a device. -/
structure Found (fnmatch : CString → CString → Bool) (lets : CString → Bool) (l : List Insertion) (m : CString)
    (dev dev' : Device) : Prop where
  value : ∀ name, Hit fnmatch lets l m name → ∃ p v, dev'.lookup name = some v ∧
    lastValue l p (chr ' '::name) = some v ∧ fnmatch p m = true ∧ (Literal m → Gives fnmatch l m (chr ' '::name) p)
  stored : ∀ name, Hit fnmatch lets l m name → charAt name 0 ≠ chr '.' →
    (dev'.propertiesList.getByName name).map (·.num) = some 1
  other : ∀ name, Device.Plain name → ¬Hit fnmatch lets l m name → dev'.lookup name = dev.lookup name

section Search

variable {fnmatch fnmatchNoescape : CString → CString → Bool} {l : List Insertion} {hwdb : Option (List UInt8)}
  {o : HwOptions}

/-- A lookup that has what it needs ends without a hit, or with one and the properties set. -/
def LookupEnds (fnmatch fnmatchNoescape : CString → CString → Bool) (l : List Insertion) (hwdb : Option (List UInt8))
    (o : HwOptions) (modalias : CString) (fuel : ℕ) : Prop :=
  ∀ dev : Device, ∃ (n : ℤ) (dev' : Device),
    builtinHwdbLookup fnmatch fnmatchNoescape fuel hwdb o dev modalias = some (n,dev') ∧
    (n = 0 ∧ dev' = dev ∧
        (∀ name, ¬Hit fnmatch (o.lets fnmatchNoescape) l (o.lookupPrefix.getD [] ++ modalias) name) ∨
      n > 0 ∧ (∃ name, Hit fnmatch (o.lets fnmatchNoescape) l (o.lookupPrefix.getD [] ++ modalias) name) ∧
        Found fnmatch (o.lets fnmatchNoescape) l (o.lookupPrefix.getD [] ++ modalias) dev dev')

theorem exists_lookupEnds (hf : FnmatchSpec fnmatch) (fnmatchNoescape : CString → CString → Bool) (hl : NulFree l)
    (hpattern : ∀ r ∈ l, r.1.length < 2000 ∧ ∀ c ∈ r.1, c < 0x80 ∧ c ≠ chr '\\' ∧ c ≠ chr '[') {version : ℕ}
    (hsmall : (trieStore version (insertAll trieNew l)).length < 2^64) (o : HwOptions) (modalias : CString) :
    ∃ N, ∀ fuel, N ≤ fuel →
      LookupEnds fnmatch fnmatchNoescape l (some (trieStore version (insertAll trieNew l))) o modalias fuel := by
  obtain ⟨m,hm⟩ : ∃ m, o.lookupPrefix.getD [] ++ modalias = m := ⟨_,rfl⟩
  obtain ⟨props,⟨N,hN⟩,hnodup,hnames,hvalues⟩ := exists_properties hf hl hpattern hsmall m
  refine ⟨N,?_⟩
  intro fuel hfuel dev
  obtain ⟨added,hadded⟩ : ∃ added : UdevList, props.filter (fun e => o.lets fnmatchNoescape e.name) = added := ⟨_,rfl⟩
  have hsub : (added.map (·.name)).Nodup := by
    rw [← hadded]
    exact hnodup.sublist (List.filter_sublist.map _)
  have hhit : ∀ name, name ∈ added.map (·.name) ↔ Hit fnmatch (o.lets fnmatchNoescape) l m name := by
    intro name
    rw [Hit,← hnames name,← hadded]
    simp only [List.mem_map,List.mem_filter]
    constructor
    · rintro ⟨e,⟨he,hlets⟩,rfl⟩
      exact ⟨⟨e,he,rfl⟩,hlets⟩
    · rintro ⟨⟨e,he,rfl⟩,hlets⟩
      exact ⟨e,⟨he,hlets⟩,rfl⟩
  have hmem : ∀ e ∈ added, e ∈ props := fun e he => (List.mem_filter.mp (hadded ▸ he)).1
  have hvalue : ∀ e ∈ added, e.value.isSome = true := by
    intro e he
    obtain ⟨p,v,hv,-⟩ := hvalues e (hmem e he)
    rw [hv]
    rfl
  obtain ⟨hall,hother⟩ := foldl_builtinAddProperty hsub hvalue dev
  have hrun : builtinHwdbLookup fnmatch fnmatchNoescape fuel (some (trieStore version (insertAll trieNew l))) o dev
      modalias = some ((added.length : ℤ),added.foldl builtinAddProperty dev) := by
    rw [builtinHwdbLookup,Option.elim_some,hm,hN fuel hfuel,Option.map_some]
    simp only [hadded]
  refine ⟨_,_,hrun,?_⟩
  rw [hm]
  cases hnil : added with
  | nil =>
    refine Or.inl ⟨rfl,rfl,?_⟩
    intro name hname
    have := (hhit name).mpr hname
    rw [hnil] at this
    cases this
  | cons e es =>
    rw [← hnil]
    refine Or.inr ⟨by rw [hnil,List.length_cons]; omega,⟨e.name,(hhit _).mp (by simp [hnil])⟩,?_,?_,?_⟩
    · intro name hname
      obtain ⟨x,hx,rfl⟩ := List.mem_map.mp ((hhit name).mpr hname)
      obtain ⟨p,v,hv,hgives⟩ := hvalues x (hmem x hx)
      exact ⟨p,v,(hall x hx).1.trans hv,hgives⟩
    · intro name hname
      obtain ⟨x,hx,rfl⟩ := List.mem_map.mp ((hhit name).mpr hname)
      exact (hall x hx).2
    · intro name _ hname
      rw [Device.lookup,hother name fun h => hname ((hhit name).mp h)]
      rfl

/-- The devices that the search looks at: those of the subsystem up to the first USB device. -/
def upToUsb : List HwDevice → List HwDevice
  | [] => []
  | d::ds => if d.usbDevice then [d] else d::upToUsb ds

/-- The strings that are looked up, one after the other as long as nothing is found. -/
def modaliases (o : HwOptions) (dev : Device) (ds : List HwDevice) : List CString :=
  (upToUsb (ds.filter o.looksAt)).filterMap (·.alias dev)

def Same (dev dev' : Device) : Prop := ∀ name, Device.Plain name → dev'.lookup name = dev.lookup name

theorem alias_same {dev dev' : Device} (h : Same dev dev') (d : HwDevice) : d.alias dev' = d.alias dev := by
  have hplain : Device.Plain (str "MODALIAS") := ⟨by decide,by decide⟩
  have hread : (d.read dev').1 = (d.read dev).1 := by
    unfold HwDevice.read
    by_cases hown : d.own = true
    · rw [if_pos hown,if_pos hown]
      simp only [Device.propertyValue_plain hplain,h _ hplain]
    · rw [if_neg hown,if_neg hown]
  rw [HwDevice.alias,hread,HwDevice.alias]

theorem same_read {dev dev' : Device} (h : Same dev dev') (d : HwDevice) : Same dev (d.read dev').2 := by
  intro name hname
  unfold HwDevice.read
  by_cases hown : d.own = true
  · rw [if_pos hown]
    exact (Device.lookup_sync hname _).trans (h name hname)
  · rw [if_neg hown]
    exact h name hname

theorem Found.of_same {lets : CString → Bool} {m : CString} {dev dev₁ dev' : Device} (hsame : Same dev dev₁)
    (h : Found fnmatch lets l m dev₁ dev') : Found fnmatch lets l m dev dev' where
  value := h.value
  stored := h.stored
  other name hname hno := (h.other name hname hno).trans (hsame name hname)

variable (fnmatch fnmatchNoescape l o) in
/-- What comes of looking up strings one after the other: nothing is found for any, or the first
one with a hit sets the properties. -/
def SearchEnds (strings : List CString) (dev : Device) (n : ℤ) (dev' : Device) : Prop :=
  n ≤ 0 ∧ Same dev dev' ∧
      (∀ a ∈ strings, ∀ name, ¬Hit fnmatch (o.lets fnmatchNoescape) l (o.lookupPrefix.getD [] ++ a) name) ∨
    n > 0 ∧ ∃ before a after, strings = before ++ a::after ∧
      (∀ b ∈ before, ∀ name, ¬Hit fnmatch (o.lets fnmatchNoescape) l (o.lookupPrefix.getD [] ++ b) name) ∧
      (∃ name, Hit fnmatch (o.lets fnmatchNoescape) l (o.lookupPrefix.getD [] ++ a) name) ∧
      Found fnmatch (o.lets fnmatchNoescape) l (o.lookupPrefix.getD [] ++ a) dev dev'

theorem SearchEnds.cons {a : CString} {strings : List CString} {dev : Device} {n : ℤ} {dev' : Device}
    (hno : ∀ name, ¬Hit fnmatch (o.lets fnmatchNoescape) l (o.lookupPrefix.getD [] ++ a) name)
    (h : SearchEnds fnmatch fnmatchNoescape l o strings dev n dev') :
    SearchEnds fnmatch fnmatchNoescape l o (a::strings) dev n dev' := by
  rcases h with ⟨hn,hsame,hnone⟩ | ⟨hn,before,b,after,rfl,hbefore,hhit,hfound⟩
  · refine Or.inl ⟨hn,hsame,?_⟩
    intro x hx
    rcases List.mem_cons.mp hx with rfl | hx
    · exact hno
    · exact hnone x hx
  · refine Or.inr ⟨hn,a::before,b,after,rfl,?_,hhit,hfound⟩
    intro x hx
    rcases List.mem_cons.mp hx with rfl | hx
    · exact hno
    · exact hbefore x hx

theorem builtinHwdbSearch_ends {fuel : ℕ} {dev dev₁ : Device} {ds : List HwDevice} {r : ℤ}
    (hends : ∀ a ∈ modaliases o dev ds, LookupEnds fnmatch fnmatchNoescape l hwdb o a fuel) (hr : r ≤ 0)
    (hsame : Same dev dev₁) :
    ∃ n dev', builtinHwdbSearch fnmatch fnmatchNoescape fuel hwdb o r dev₁ ds = some (n,dev') ∧
      SearchEnds fnmatch fnmatchNoescape l o (modaliases o dev ds) dev n dev' := by
  induction ds generalizing dev₁ r with
  | nil => exact ⟨r,dev₁,rfl,Or.inl ⟨hr,hsame,by simp [modaliases,upToUsb]⟩⟩
  | cons d ds ih =>
    by_cases hlooks : o.looksAt d = true
    · have hread := same_read hsame d
      have hfilter : (d::ds).filter o.looksAt = d::ds.filter o.looksAt := List.filter_cons_of_pos hlooks
      cases halias : d.alias dev with
      | none =>
        have halias₁ : d.alias dev₁ = none := (alias_same hsame d).trans halias
        by_cases husb : d.usbDevice = true
        · refine ⟨r,(d.read dev₁).2,?_,Or.inl ⟨hr,hread,?_⟩⟩
          · rw [builtinHwdbSearch,if_pos hlooks,halias₁,Option.elim_none,if_pos husb]
          · simp [modaliases,hfilter,upToUsb,husb,halias]
        · have hlist : modaliases o dev (d::ds) = modaliases o dev ds := by
            simp [modaliases,hfilter,upToUsb,husb,halias]
          obtain ⟨n,dev',hrun,hout⟩ := ih (hlist ▸ hends) hr hread
          refine ⟨n,dev',?_,hlist ▸ hout⟩
          rw [builtinHwdbSearch,if_pos hlooks,halias₁,Option.elim_none,if_neg husb,hrun]
      | some a =>
        have halias₁ : d.alias dev₁ = some a := (alias_same hsame d).trans halias
        obtain ⟨rest,hlist,hrest⟩ : ∃ rest, modaliases o dev (d::ds) = a::rest ∧
            (d.usbDevice = true ∧ rest = [] ∨ d.usbDevice = false ∧ rest = modaliases o dev ds) := by
          by_cases husb : d.usbDevice = true
          · exact ⟨[],by simp [modaliases,hfilter,upToUsb,husb,halias],Or.inl ⟨husb,rfl⟩⟩
          · exact ⟨modaliases o dev ds,by simp [modaliases,hfilter,upToUsb,husb,halias],
              Or.inr ⟨by simpa using husb,rfl⟩⟩
        obtain ⟨n,dev₂,hrun,hcase⟩ := hends a (by rw [hlist]; exact List.mem_cons_self) (d.read dev₁).2
        have hstep : builtinHwdbSearch fnmatch fnmatchNoescape fuel hwdb o r dev₁ (d::ds) =
            if n > 0 ∨ d.usbDevice then some (n,dev₂)
            else builtinHwdbSearch fnmatch fnmatchNoescape fuel hwdb o n dev₂ ds := by
          rw [builtinHwdbSearch,if_pos hlooks,halias₁,Option.elim_some,hrun,Option.bind_some]
        rw [hstep,hlist]
        rcases hcase with ⟨rfl,rfl,hno⟩ | ⟨hn,hhit,hfound⟩
        · rcases hrest with ⟨husb,rfl⟩ | ⟨husb,rfl⟩
          · refine ⟨0,_,if_pos (Or.inr husb),SearchEnds.cons hno (Or.inl ⟨le_rfl,hread,by simp⟩)⟩
          · obtain ⟨n,dev',hrun',hout⟩ := ih (fun x hx => hends x (by rw [hlist]; exact List.mem_cons_of_mem _ hx))
              le_rfl hread
            refine ⟨n,dev',?_,hout.cons hno⟩
            rw [if_neg (by simp [husb]),hrun']
        · exact ⟨n,dev₂,if_pos (Or.inl hn),Or.inr ⟨hn,[],a,rest,rfl,by simp,hhit,hfound.of_same hread⟩⟩
    · have hlist : modaliases o dev (d::ds) = modaliases o dev ds := by
        simp [modaliases,List.filter_cons_of_neg hlooks]
      obtain ⟨n,dev',hrun,hout⟩ := ih (hlist ▸ hends) hr hsame
      refine ⟨n,dev',?_,hlist ▸ hout⟩
      rw [builtinHwdbSearch,if_neg hlooks,hrun]

end Search

section Files

/-- The index that `udevadm hwdb` makes of the text files, in their order. -/
def importFiles (files : List (List Record)) : Trie :=
  files.foldl (fun trie records => importFile trie (textFile (recordLines records))) trieNew

def insertions (files : List (List Record)) : List Insertion := files.flatMap (·.flatMap Record.product)

variable {files : List (List Record)}

theorem importFiles_eq (hwell : ∀ records ∈ files, ∀ r ∈ records, r.WellFormed)
    (hplain : ∀ records ∈ files, ∀ r ∈ records, r.Plain) : importFiles files = insertAll trieNew (insertions files) := by
  have hfold : ∀ trie, files.foldl (fun trie records => importFile trie (textFile (recordLines records))) trie =
      insertAll trie (insertions files) := by
    induction files with
    | nil => exact fun _ => rfl
    | cons records files ih =>
      intro trie
      rw [List.foldl_cons,importFile_records (hwell _ List.mem_cons_self) (hplain _ List.mem_cons_self),
        ih (fun x hx => hwell x (List.mem_cons_of_mem _ hx)) (fun x hx => hplain x (List.mem_cons_of_mem _ hx)),
        ← insertAll_append]
      rfl
  exact hfold trieNew

theorem mem_insertions {i : Insertion} :
    i ∈ insertions files ↔ ∃ records ∈ files, ∃ r ∈ records, ∃ d ∈ r.data, ∃ m ∈ r.matchs, i = (m,chr ' '::d.1,d.2) := by
  simp only [insertions,Record.product,List.mem_flatMap,List.mem_map]
  constructor
  · rintro ⟨records,hrecords,r,hr,d,hd,m,hm,rfl⟩
    exact ⟨records,hrecords,r,hr,d,hd,m,hm,rfl⟩
  · rintro ⟨records,hrecords,r,hr,d,hd,m,hm,rfl⟩
    exact ⟨records,hrecords,r,hr,d,hd,m,hm,rfl⟩

theorem nulFree_insertions (hwell : ∀ records ∈ files, ∀ r ∈ records, r.WellFormed) : NulFree (insertions files) := by
  intro i hi
  obtain ⟨records,hrecords,r,hr,d,hd,m,hm,rfl⟩ := mem_insertions.mp hi
  have htext := (hwell records hrecords r hr).text
  have hmatch := (htext m (List.mem_append_left _ hm)).ascii
  have hdata := (htext (dataLine d) (List.mem_append_right _ (List.mem_map_of_mem hd))).ascii
  refine ⟨fun h => absurd (hmatch 0 h).1 (by decide),?_,?_⟩
  · intro h
    rcases List.mem_cons.mp h with hspace | h
    · exact absurd hspace (by decide)
    · exact absurd (hdata 0 (by simp [dataLine,h])).1 (by decide)
  · exact fun h => absurd (hdata 0 (by simp [dataLine,h])).1 (by decide)

end Files

/-- The strings that the command looks up: its argument, or those of the devices. -/
def lookupStrings (o : HwOptions) (key : Option CString) (srcdev : Option (List HwDevice)) (dev : Device) : List CString :=
  key.elim (srcdev.elim [] (modaliases o dev)) ([·])

/-- The command gives a device the properties of the records in the text files: those whose
patterns match the first looked up string that some pattern with a property for it matches. -/
theorem hwdb_properties {fnmatch : CString → CString → Bool} (hf : FnmatchSpec fnmatch) {files : List (List Record)}
    (hwell : ∀ records ∈ files, ∀ r ∈ records, r.WellFormed) (hplain : ∀ records ∈ files, ∀ r ∈ records, r.Plain)
    (hmatch : ∀ records ∈ files, ∀ r ∈ records, ∀ m ∈ r.matchs, m.length < 2000 ∧ chr '\\' ∉ m ∧ chr '[' ∉ m)
    {version : ℕ} (hsmall : (trieStore version (importFiles files)).length < 2^64)
    (fnmatchNoescape : CString → CString → Bool) (o : HwOptions) (key : Option CString)
    (srcdev : Option (List HwDevice)) (dev : Device) :
    ∃ N, ∀ fuel, N ≤ fuel → ∃ (n : ℤ) (dev' : Device),
      builtinHwdb fnmatch fnmatchNoescape fuel (some (trieStore version (importFiles files))) o key srcdev dev =
        some (if n > 0 then 0 else 1,dev') ∧
      SearchEnds fnmatch fnmatchNoescape (insertions files) o (lookupStrings o key srcdev dev) dev n dev' := by
  have hl := nulFree_insertions hwell
  have hpattern : ∀ r ∈ insertions files, r.1.length < 2000 ∧ ∀ c ∈ r.1, c < 0x80 ∧ c ≠ chr '\\' ∧ c ≠ chr '[' := by
    intro i hi
    obtain ⟨records,hrecords,r,hr,d,hd,m,hm,rfl⟩ := mem_insertions.mp hi
    obtain ⟨hlen,hback,hbracket⟩ := hmatch records hrecords r hr m hm
    have htext := (hwell records hrecords r hr).text m (List.mem_append_left _ hm)
    exact ⟨hlen,fun c hc => ⟨(htext.ascii c hc).2,ne_of_mem_of_not_mem hc hback,ne_of_mem_of_not_mem hc hbracket⟩⟩
  rw [importFiles_eq hwell hplain] at hsmall ⊢
  obtain ⟨N,hN⟩ := exists_bound fun a (_ : a ∈ lookupStrings o key srcdev dev) =>
    exists_lookupEnds hf fnmatchNoescape hl hpattern hsmall o a
  refine ⟨N,?_⟩
  intro fuel hfuel
  have hends := hN fuel hfuel
  have hsame : Same dev dev := fun _ _ => rfl
  cases key with
  | some a =>
    obtain ⟨n,dev',hrun,hcase⟩ := hends a (List.mem_singleton_self a) dev
    refine ⟨n,dev',?_,?_⟩
    · rw [builtinHwdb,if_neg (by simp),Option.elim_some,hrun]
      rfl
    · rcases hcase with ⟨rfl,rfl,hno⟩ | ⟨hn,hhit,hfound⟩
      · exact SearchEnds.cons hno (Or.inl ⟨le_rfl,hsame,by simp⟩)
      · exact Or.inr ⟨hn,[],a,[],rfl,by simp,hhit,hfound⟩
  | none =>
    cases srcdev with
    | none => exact ⟨0,dev,rfl,Or.inl ⟨le_rfl,hsame,by simp [lookupStrings]⟩⟩
    | some ds =>
      obtain ⟨n,dev',hrun,hout⟩ := builtinHwdbSearch_ends hends (r := 0) le_rfl hsame
      refine ⟨n,dev',?_,hout⟩
      rw [builtinHwdb,if_neg (by simp),Option.elim_none,Option.elim_some,hrun]
      rfl

/-- A USB keyboard without a modalias, below its hub. -/
def keyboard : List HwDevice :=
  [{ own := true, subsystem := some (str "usb"), devtype := some (str "usb_interface") },
   { subsystem := some (str "usb"), devtype := some (str "usb_device"), idVendor := some (str "04f2"),
     idProduct := some (str "0402") },
   { subsystem := some (str "usb"), devtype := some (str "usb_device"), modalias := some (str "usb:v1D6Bp0002") }]

example : modaliases {} {} keyboard = [str "usb:v04F2p0402*"] := by decide +kernel

theorem hwdb_properties_keyboard : ∃ N, ∀ fuel, N ≤ fuel → ∃ dev', builtinHwdb simpleFnmatch simpleFnmatch fuel
    (some (trieStore 220 (importFiles [usbFile]))) {} none (some keyboard) {} = some (0,dev') ∧
      (dev'.lookup (str "ID_VENDOR")).isSome = true := by
  have hsmall : (trieStore 220 (importFiles [usbFile])).length < 2^64 := by
    rw [importFiles_eq (by decide +kernel) (by decide +kernel)]
    decide +kernel
  obtain ⟨N,hN⟩ := hwdb_properties fnmatchSpec_simpleFnmatch
    (show ∀ records ∈ [usbFile], ∀ r ∈ records, r.WellFormed from by decide +kernel) (by decide +kernel) (by decide +kernel)
    hsmall simpleFnmatch {} none (some keyboard) {}
  refine ⟨N,?_⟩
  intro fuel hfuel
  have hhit : Hit simpleFnmatch (HwOptions.lets simpleFnmatch {}) (insertions [usbFile]) (str "usb:v04F2p0402*")
      (str "ID_VENDOR") :=
    ⟨⟨(str "usb:v04F2*",str " ID_VENDOR",str "Chicony"),by decide +kernel,by decide +kernel,by decide +kernel⟩,
      by decide +kernel⟩
  have hstrings : lookupStrings {} none (some keyboard) {} = [str "usb:v04F2p0402*"] := by decide +kernel
  obtain ⟨n,dev',hrun,hends⟩ := hN fuel hfuel
  rw [hstrings] at hends
  rcases hends with ⟨-,-,hno⟩ | ⟨hn,before,a,after,hsplit,-,-,hfound⟩
  · exact absurd hhit (hno _ List.mem_cons_self _)
  · obtain ⟨rfl,rfl,rfl⟩ : before = [] ∧ a = str "usb:v04F2p0402*" ∧ after = [] := by
      cases before with
      | nil => exact ⟨rfl,(List.cons.inj hsplit).1.symm,(List.cons.inj hsplit).2.symm⟩
      | cons b before => simp at hsplit
    obtain ⟨p,v,hv,-⟩ := hfound.value _ hhit
    exact ⟨dev',by rw [hrun,if_pos hn],by rw [hv]; rfl⟩

end Hwdb
end Udev
