import Udev.Properties
import Udev.UniqueList
import Udev.Decimal

/-! The database file of a device: one line for each link, number, stored property and
tag, written by the daemon and read back by the library. -/
namespace Udev
namespace Database

open CString Text Decimal Device

/-- The entries of the properties that are stored. -/
def stored (l : UdevList) : UdevList := l.filter (·.num ≠ 0)

/-- `device_has_info`. -/
def hasInfo (d : Device) : Bool :=
  d.devlinksList ≠ [] || d.devlinkPriority ≠ 0 || stored d.sync.propertiesList ≠ [] || d.tagsList ≠ [] ||
    d.watchHandle ≥ 0

def dbLine (key : Char) (val : CString) : CString := chr key::chr ':'::val

/-- The lines of `udev_device_update_db` for a device with information. -/
def dbLines (d : Device) : List CString :=
  (if major d.devnum > 0 then
    d.devlinksList.map (fun e => dbLine 'S' (e.name.drop 5)) ++
    (if d.devlinkPriority ≠ 0 then [dbLine 'L' (printInt d.devlinkPriority)] else []) ++
    (if d.watchHandle ≥ 0 then [dbLine 'W' (printInt d.watchHandle)] else [])
  else []) ++
  (if d.usecInitialized > 0 then [dbLine 'I' (printNat d.usecInitialized)] else []) ++
  (stored d.sync.propertiesList).map (fun e => dbLine 'E' (e.name ++ str "=" ++ e.value.getD [])) ++
  d.tagsList.map fun e => dbLine 'G' e.name

def dbFile (lines : List CString) : List UInt8 := lines.flatMap (· ++ [chr '\n'])

/-- `udev_device_update_db`: the file, or `none` if there shall be none. -/
def updateDb (d : Device) : Option (List UInt8) :=
  if hasInfo d = false ∧ major d.devnum = 0 ∧ d.ifindex = 0 then none
  else some (if hasInfo d then dbFile (dbLines d) else [])

/-- `udev_device_add_property_from_string`, with the name of the entry it returns; a
property without a value is deleted. -/
def addPropertyFromString (d : Device) (property : CString) : Device × Option CString :=
  let name := strscpy utilLineSize property
  match strchr name (chr '=') with
  | none => (d,none)
  | some rest =>
    let key := name.take (name.length-rest.length)
    if rest.drop 1 = [] then (d.deleteProperty key,none) else (d.setProperty key (rest.drop 1),some key)

def setUsecInitialized (d : Device) (usec : ℕ) : Device :=
  { d with usecInitialized := usec }.setProperty (str "USEC_INITIALIZED") (printNat usec)

/-- The `switch` of `udev_device_read_db` on a line without its last byte. -/
def readDbLine (d : Device) (line : CString) : Device :=
  let val := line.drop 2
  let key := charAt line 0
  if key = chr 'S' then d.addDevlink (strscpyl utilPathSize [str "/dev/",val])
  else if key = chr 'L' then { d with devlinkPriority := atoi val }
  else if key = chr 'E' then
    let r := addPropertyFromString d val
    r.2.elim r.1 r.1.markStored
  else if key = chr 'G' then d.addTag val
  else if key = chr 'W' then { d with watchHandle := atoi val }
  else if key = chr 'I' then setUsecInitialized d (strtoul 10 val).1
  else d

/-- The loop of `udev_device_read_db`; it ends at a line of less than four bytes. -/
def readDbLoop : ℕ → List UInt8 → Device → Device
  | 0, _, d => d
  | fuel+1, file, d =>
    match fgets utilLineSize file with
    | none => d
    | some (line,rest) => if line.length < 4 then d else readDbLoop fuel rest (readDbLine d line.dropLast)

/-- `udev_device_read_db`; every line takes at least one byte of the file. -/
def readDb (d : Device) (file : List UInt8) : Device := readDbLoop file.length file d

/-- A line of the file that is read as it was written. -/
structure LineOk (line : CString) : Prop where
  long : 3 ≤ line.length
  fits : line.length+1 < utilLineSize
  newline : chr '\n' ∉ line
  nul : 0 ∉ line

instance (line : CString) : Decidable (LineOk line) :=
  decidable_of_iff (3 ≤ line.length ∧ line.length+1 < utilLineSize ∧ chr '\n' ∉ line ∧ 0 ∉ line)
    ⟨fun h => ⟨h.1,h.2.1,h.2.2.1,h.2.2.2⟩,fun h => ⟨h.long,h.fits,h.newline,h.nul⟩⟩

theorem readDbLoop_lines {lines : List CString} (hlines : ∀ line ∈ lines, LineOk line) (d : Device) {fuel : ℕ}
    (hfuel : (dbFile lines).length ≤ fuel) : readDbLoop fuel (dbFile lines) d = lines.foldl readDbLine d := by
  induction lines generalizing d fuel with
  | nil => cases fuel <;> rfl
  | cons line lines ih =>
    have hline := hlines line List.mem_cons_self
    have hfile : dbFile (line::lines) = line ++ chr '\n'::dbFile lines := by simp [dbFile]
    rw [hfile,List.length_append,List.length_cons] at hfuel
    obtain ⟨fuel,rfl⟩ : ∃ m, fuel = m+1 := ⟨fuel-1,by omega⟩
    have hlong : ¬(line ++ [chr '\n']).length < 4 := by
      have := hline.long
      rw [List.length_append,List.length_singleton]
      omega
    rw [hfile,readDbLoop,fgets_line hline.fits hline.newline hline.nul]
    simp only [if_neg hlong,List.dropLast_concat]
    exact ih (fun x hx => hlines x (List.mem_cons_of_mem _ hx)) _ (by omega)

theorem readDb_lines {lines : List CString} (hlines : ∀ line ∈ lines, LineOk line) (d : Device) :
    readDb d (dbFile lines) = lines.foldl readDbLine d :=
  readDbLoop_lines hlines d (Nat.le_refl _)

structure Info where
  devlinks : UdevList
  priority : ℤ
  watch : ℤ
  usec : ℕ
  properties : UdevList
  tags : UdevList

def info (d : Device) : Info :=
  ⟨d.devlinksList,d.devlinkPriority,d.watchHandle,d.usecInitialized,d.propertiesList,d.tagsList⟩

section Lines

variable (d : Device)

theorem info_readDbLine_link {name : CString} (hdev : startswith name (str "/dev/") = true)
    (hlen : name.length < utilPathSize) :
    info (readDbLine d (dbLine 'S' (name.drop 5))) =
      { info d with devlinks := (info d).devlinks.add name none } := by
  obtain ⟨rest,rfl⟩ := List.isPrefixOf_iff_prefix.mp hdev
  have hcopy : strscpyl utilPathSize [str "/dev/",rest] = str "/dev/" ++ rest := by
    rw [strscpyl_fits]
    · simp
    · simpa using hlen
  have hread : readDbLine d (dbLine 'S' ((str "/dev/" ++ rest).drop 5)) =
      d.addDevlink (strscpyl utilPathSize [str "/dev/",rest]) := rfl
  rw [hread,hcopy]
  rfl

theorem info_readDbLine_priority {z : ℤ} (h : -2^31 ≤ z) (h' : z < 2^31) :
    info (readDbLine d (dbLine 'L' (printInt z))) = { info d with priority := z } := by
  have hread : readDbLine d (dbLine 'L' (printInt z)) = { d with devlinkPriority := atoi (printInt z) } := rfl
  rw [hread,atoi_printInt h h']
  rfl

theorem info_readDbLine_watch {z : ℤ} (h : -2^31 ≤ z) (h' : z < 2^31) :
    info (readDbLine d (dbLine 'W' (printInt z))) = { info d with watch := z } := by
  have hread : readDbLine d (dbLine 'W' (printInt z)) = { d with watchHandle := atoi (printInt z) } := rfl
  rw [hread,atoi_printInt h h']
  rfl

theorem info_readDbLine_usec {n : ℕ} (h : n < 2^64) :
    info (readDbLine d (dbLine 'I' (printNat n))) =
      { info d with
        usec := n, properties := (info d).properties.add (str "USEC_INITIALIZED") (some (printNat n)) } := by
  have hread : readDbLine d (dbLine 'I' (printNat n)) = setUsecInitialized d (strtoul 10 (printNat n)).1 := rfl
  rw [hread,strtoul_printNat h]
  rfl

theorem info_readDbLine_tag {tag : CString} (hcolon : chr ':' ∉ tag) (hspace : chr ' ' ∉ tag) :
    info (readDbLine d (dbLine 'G' tag)) = { info d with tags := (info d).tags.add tag none } := by
  have hread : readDbLine d (dbLine 'G' tag) = d.addTag tag := rfl
  rw [hread,addTag,strchr_eq_none hcolon,strchr_eq_none hspace]
  rfl

theorem addPropertyFromString_append {name value : CString} (hname : chr '=' ∉ name) (hvalue : value ≠ [])
    (hlen : (name ++ str "=" ++ value).length < utilLineSize) :
    addPropertyFromString d (name ++ str "=" ++ value) = (d.setProperty name value,some name) := by
  have hline : name ++ str "=" ++ value = name ++ chr '='::value := by simp [str,chr]
  have hcopy : strscpy utilLineSize (name ++ chr '='::value) = name ++ chr '='::value :=
    strscpy_fits (hline ▸ hlen)
  have hkey : (name ++ chr '='::value).take ((name ++ chr '='::value).length-(chr '='::value).length) = name := by
    simp
  simp only [hline,addPropertyFromString,hcopy,strchr_append hname,hkey,List.drop_one,List.tail_cons,if_neg hvalue]

theorem info_readDbLine_property {name value : CString} (hname : chr '=' ∉ name) (hvalue : value ≠ [])
    (hlen : (name ++ str "=" ++ value).length < utilLineSize) :
    info (readDbLine d (dbLine 'E' (name ++ str "=" ++ value))) =
      { info d with properties := ((info d).properties.add name (some value)).setNum name 1 } := by
  have hread : readDbLine d (dbLine 'E' (name ++ str "=" ++ value)) =
      (addPropertyFromString d (name ++ str "=" ++ value)).2.elim
        (addPropertyFromString d (name ++ str "=" ++ value)).1
        (addPropertyFromString d (name ++ str "=" ++ value)).1.markStored := rfl
  rw [hread,addPropertyFromString_append d hname hvalue hlen]
  rfl

end Lines

section Loops

variable {l : UdevList} (d : Device)

theorem info_foldl_links
    (h : ∀ e ∈ l, startswith e.name (str "/dev/") = true ∧ e.name.length < utilPathSize) :
    info ((l.map fun e => dbLine 'S' (e.name.drop 5)).foldl readDbLine d) =
      { info d with devlinks := l.foldl (fun acc e => acc.add e.name none) (info d).devlinks } := by
  induction l generalizing d with
  | nil => rfl
  | cons e l ih =>
    obtain ⟨hdev,hlen⟩ := h e List.mem_cons_self
    rw [List.map_cons,List.foldl_cons,ih _ fun x hx => h x (List.mem_cons_of_mem _ hx),
      info_readDbLine_link d hdev hlen]
    rfl

theorem info_foldl_tags (h : ∀ e ∈ l, chr ':' ∉ e.name ∧ chr ' ' ∉ e.name) :
    info ((l.map fun e => dbLine 'G' e.name).foldl readDbLine d) =
      { info d with tags := l.foldl (fun acc e => acc.add e.name none) (info d).tags } := by
  induction l generalizing d with
  | nil => rfl
  | cons e l ih =>
    obtain ⟨hcolon,hspace⟩ := h e List.mem_cons_self
    rw [List.map_cons,List.foldl_cons,ih _ fun x hx => h x (List.mem_cons_of_mem _ hx),
      info_readDbLine_tag d hcolon hspace]
    rfl

theorem info_foldl_properties
    (h : ∀ e ∈ l, chr '=' ∉ e.name ∧ ∃ value, e.value = some value ∧ value ≠ [] ∧
      (e.name ++ str "=" ++ value).length < utilLineSize) :
    info ((l.map fun e => dbLine 'E' (e.name ++ str "=" ++ e.value.getD [])).foldl readDbLine d) =
      { info d with
        properties := l.foldl (fun acc e => (acc.add e.name e.value).setNum e.name 1) (info d).properties } := by
  induction l generalizing d with
  | nil => rfl
  | cons e l ih =>
    obtain ⟨hname,value,hvalue,hne,hlen⟩ := h e List.mem_cons_self
    rw [List.map_cons,List.foldl_cons,ih _ fun x hx => h x (List.mem_cons_of_mem _ hx),hvalue,Option.getD_some,
      info_readDbLine_property d hname hne hlen,List.foldl_cons,hvalue]

end Loops

/-- Reading stored properties gives these as stored, over what was there before. -/
theorem mem_foldl_properties {l : UdevList} (hnodup : (l.map (·.name)).Nodup) {props : UdevList}
    (hprops : props.Sorted) :
    (l.foldl (fun (acc : UdevList) e => (acc.add e.name e.value).setNum e.name 1) props).Sorted ∧
      ∀ e, e ∈ l.foldl (fun (acc : UdevList) e => (acc.add e.name e.value).setNum e.name 1) props ↔
        (∃ x ∈ l, e = ⟨x.name,x.value,1⟩) ∨ e ∈ props ∧ e.name ∉ l.map (·.name) := by
  induction l using List.reverseRecOn with
  | nil => exact ⟨hprops,by simp⟩
  | append_singleton l x ih =>
    rw [List.map_append,List.nodup_append] at hnodup
    obtain ⟨hl,-,hdisj⟩ := hnodup
    obtain ⟨hsorted,hmem⟩ := ih hl
    have hx : ∀ y ∈ l, y.name ≠ x.name := fun y hy =>
      hdisj y.name (List.mem_map_of_mem hy) x.name (by simp)
    rw [List.foldl_append,List.foldl_cons,List.foldl_nil]
    refine ⟨(hsorted.add _ _).setNum _ _,?_⟩
    intro e
    rw [hsorted.mem_setNum_add,hmem]
    simp only [List.mem_append,List.mem_singleton,List.map_append,List.map_cons,List.map_nil,not_or]
    constructor
    · rintro (rfl | ⟨⟨y,hy,rfl⟩ | ⟨he,hnot⟩,hne⟩)
      · exact Or.inl ⟨x,Or.inr rfl,rfl⟩
      · exact Or.inl ⟨y,Or.inl hy,rfl⟩
      · exact Or.inr ⟨he,hnot,hne⟩
    · rintro (⟨y,hy | rfl,rfl⟩ | ⟨he,hnot,hne⟩)
      · exact Or.inr ⟨Or.inl ⟨y,hy,rfl⟩,hx y hy⟩
      · exact Or.inl rfl
      · exact Or.inr ⟨Or.inr ⟨he,hnot⟩,hne⟩

theorem stored_foldl_properties {l : UdevList} (hl : l.Sorted) {props : UdevList} (hprops : props.Sorted)
    (hnum : ∀ e ∈ props, e.num = 0) :
    stored (l.foldl (fun (acc : UdevList) e => (acc.add e.name e.value).setNum e.name 1) props) =
      l.map fun e => (⟨e.name,e.value,1⟩ : ListEntry) := by
  obtain ⟨hsorted,hmem⟩ := mem_foldl_properties hl.nodup_names hprops
  refine (hsorted.filter _).ext (List.pairwise_map.mpr hl) ?_
  intro e
  rw [List.mem_filter,hmem]
  constructor
  · rintro ⟨⟨x,hx,rfl⟩ | ⟨he,-⟩,hne⟩
    · exact List.mem_map.mpr ⟨x,hx,rfl⟩
    · simp [hnum e he] at hne
  · intro he
    obtain ⟨x,hx,rfl⟩ := List.mem_map.mp he
    exact ⟨Or.inl ⟨x,hx,rfl⟩,rfl⟩

/-- A device whose file is read back as it was written: its lists are unique, names and
values are not empty and fit the buffers, and there is information for the file. -/
structure DbOk (d : Device) : Prop where
  links : d.devlinksList.Sorted
  link : ∀ e ∈ d.devlinksList, startswith e.name (str "/dev/") = true ∧ 5 < e.name.length ∧
    e.name.length < utilPathSize ∧ chr '\n' ∉ e.name ∧ 0 ∉ e.name
  priority : -2^31 ≤ d.devlinkPriority ∧ d.devlinkPriority < 2^31
  watch : -1 ≤ d.watchHandle ∧ d.watchHandle < 2^31
  usec : d.usecInitialized < 2^64
  properties : d.sync.propertiesList.Sorted
  property : ∀ e ∈ stored d.sync.propertiesList, chr '=' ∉ e.name ∧ chr '\n' ∉ e.name ∧ 0 ∉ e.name ∧
    ∃ value, e.value = some value ∧ value ≠ [] ∧ chr '\n' ∉ value ∧ 0 ∉ value ∧
      e.name.length+value.length+4 < utilLineSize
  tags : d.tagsList.Sorted
  tag : ∀ e ∈ d.tagsList, e.name ≠ [] ∧ chr ':' ∉ e.name ∧ chr ' ' ∉ e.name ∧ chr '\n' ∉ e.name ∧ 0 ∉ e.name ∧
    e.name.length+3 < utilLineSize
  info : hasInfo d = true ∨ d.usecInitialized = 0

structure Fresh (d : Device) : Prop where
  devlinksList : d.devlinksList = []
  devlinkPriority : d.devlinkPriority = 0
  watchHandle : d.watchHandle = -1
  usecInitialized : d.usecInitialized = 0
  tagsList : d.tagsList = []
  sorted : d.propertiesList.Sorted
  num : ∀ e ∈ d.propertiesList, e.num = 0

theorem lineOk_dbLine {key : Char} (hkey : chr key ≠ chr '\n' ∧ chr key ≠ 0) {val : CString} (hval : val ≠ [])
    (hlen : val.length+3 < utilLineSize) (hnewline : chr '\n' ∉ val) (hnul : 0 ∉ val) : LineOk (dbLine key val) := by
  have hcolon : chr '\n' ≠ chr ':' ∧ (0 : UInt8) ≠ chr ':' := by decide
  have hpos := List.length_pos_iff.mpr hval
  refine ⟨?_,?_,?_,?_⟩
  · simp only [dbLine,List.length_cons]
    omega
  · simp only [dbLine,List.length_cons]
    omega
  · simp only [dbLine,List.mem_cons,not_or]
    exact ⟨Ne.symm hkey.1,hcolon.1,hnewline⟩
  · simp only [dbLine,List.mem_cons,not_or]
    exact ⟨Ne.symm hkey.2,hcolon.2,hnul⟩

theorem lineOk_printInt {key : Char} (hkey : chr key ≠ chr '\n' ∧ chr key ≠ 0) (z : ℤ) :
    LineOk (dbLine key (printInt z)) := by
  obtain ⟨hpos,hle⟩ := printInt_length z
  have hsize : utilLineSize = 16384 := rfl
  exact lineOk_dbLine hkey (List.length_pos_iff.mp hpos) (by omega) (printInt_text (by decide)) (printInt_text (by decide))

theorem lineOk_printNat {key : Char} (hkey : chr key ≠ chr '\n' ∧ chr key ≠ 0) (n : ℕ) :
    LineOk (dbLine key (printNat n)) := by
  obtain ⟨hpos,hle⟩ := printNat_length n
  have hsize : utilLineSize = 16384 := rfl
  exact lineOk_dbLine hkey (List.length_pos_iff.mp hpos) (by omega) (printNat_text (by decide)) (printNat_text (by decide))

theorem lineOk_dbLines {d : Device} (hd : DbOk d) : ∀ line ∈ dbLines d, LineOk line := by
  intro line hline
  simp only [dbLines,List.mem_append,List.mem_ite_nil_right,List.mem_singleton] at hline
  rcases hline with ((⟨-,(hline | ⟨-,rfl⟩) | ⟨-,rfl⟩⟩ | ⟨-,rfl⟩) | hline) | hline
  · obtain ⟨e,he,rfl⟩ := List.mem_map.mp hline
    obtain ⟨hdev,hlong,hlen,hnewline,hnul⟩ := hd.link e he
    have hsize : utilPathSize = 1024 := rfl
    have hsize' : utilLineSize = 16384 := rfl
    refine lineOk_dbLine (by decide) ?_ ?_ (fun h => hnewline (List.mem_of_mem_drop h))
      (fun h => hnul (List.mem_of_mem_drop h))
    · intro hnil
      have := List.drop_eq_nil_iff.mp hnil
      omega
    · rw [List.length_drop]
      omega
  · exact lineOk_printInt (by decide) _
  · exact lineOk_printInt (by decide) _
  · exact lineOk_printNat (by decide) _
  · obtain ⟨e,he,rfl⟩ := List.mem_map.mp hline
    obtain ⟨-,hnewline,hnul,value,hvalue,-,hnewline',hnul',hlen⟩ := hd.property e he
    have hequals : (str "=").length = 1 := rfl
    have hmem : ∀ c : UInt8, c ≠ chr '=' → c ∉ e.name → c ∉ value → c ∉ e.name ++ str "=" ++ value := by
      intro c hc hname hval hmem
      rcases List.mem_append.mp hmem with hmem | hmem
      · rcases List.mem_append.mp hmem with hmem | hmem
        · exact hname hmem
        · exact hc (List.mem_singleton.mp hmem)
      · exact hval hmem
    rw [hvalue,Option.getD_some]
    refine lineOk_dbLine (by decide) (by simp [str]) ?_ (hmem _ (by decide) hnewline hnewline')
      (hmem _ (by decide) hnul hnul')
    rw [List.length_append,List.length_append]
    omega
  · obtain ⟨e,he,rfl⟩ := List.mem_map.mp hline
    obtain ⟨hne,-,-,hnewline,hnul,hlen⟩ := hd.tag e he
    exact lineOk_dbLine (by decide) hne hlen hnewline hnul

theorem info_foldl_node {d : Device} (hd : DbOk d) {d₀ : Device} (h₀ : Fresh d₀) :
    info ((d.devlinksList.map (fun e => dbLine 'S' (e.name.drop 5)) ++
      (if d.devlinkPriority ≠ 0 then [dbLine 'L' (printInt d.devlinkPriority)] else []) ++
      (if d.watchHandle ≥ 0 then [dbLine 'W' (printInt d.watchHandle)] else [])).foldl readDbLine d₀) =
      { info d₀ with
        devlinks := d.devlinksList.map fun e => ⟨e.name,none,0⟩
        priority := d.devlinkPriority
        watch := d.watchHandle } := by
  have hlinks := info_foldl_links d₀ (l := d.devlinksList) fun e he => ⟨(hd.link e he).1,(hd.link e he).2.2.1⟩
  have hempty : (info d₀).devlinks = [] := h₀.devlinksList
  have hzero : (info d₀).priority = 0 := h₀.devlinkPriority
  have hnone : (info d₀).watch = -1 := h₀.watchHandle
  rw [hempty,hd.links.foldl_add] at hlinks
  have hpriority : ∀ d₁ : Device, (info d₁).priority = 0 →
      info ((if d.devlinkPriority ≠ 0 then [dbLine 'L' (printInt d.devlinkPriority)] else []).foldl readDbLine d₁) =
        { info d₁ with priority := d.devlinkPriority } := by
    intro d₁ hd₁
    split_ifs with hp
    · exact info_readDbLine_priority d₁ hd.priority.1 hd.priority.2
    · have hp : d.devlinkPriority = 0 := not_not.mp hp
      rw [hp,← hd₁]
      rfl
  have hwatch : ∀ d₁ : Device, (info d₁).watch = -1 →
      info ((if d.watchHandle ≥ 0 then [dbLine 'W' (printInt d.watchHandle)] else []).foldl readDbLine d₁) =
        { info d₁ with watch := d.watchHandle } := by
    intro d₁ hd₁
    have hrange := hd.watch
    split_ifs with hw
    · exact info_readDbLine_watch d₁ (by omega) hrange.2
    · have hw : d.watchHandle = -1 := by omega
      rw [hw,← hd₁]
      rfl
  rw [List.foldl_append,List.foldl_append,hwatch,hpriority,hlinks]
  · rw [hlinks]
    exact hzero
  · rw [hpriority,hlinks]
    · exact hnone
    · rw [hlinks]
      exact hzero

theorem info_foldl_dbLines {d : Device} (hd : DbOk d) {d₀ : Device} (h₀ : Fresh d₀) :
    let i := info ((dbLines d).foldl readDbLine d₀)
    i.usec = d.usecInitialized ∧
      stored i.properties = (stored d.sync.propertiesList).map (fun e => (⟨e.name,e.value,1⟩ : ListEntry)) ∧
      i.tags = d.tagsList.map (fun e => (⟨e.name,none,0⟩ : ListEntry)) ∧
      (major d.devnum > 0 →
        i.devlinks = d.devlinksList.map (fun e => (⟨e.name,none,0⟩ : ListEntry)) ∧
        i.priority = d.devlinkPriority ∧ i.watch = d.watchHandle) := by
  let node := d.devlinksList.map (fun e => dbLine 'S' (e.name.drop 5)) ++
      (if d.devlinkPriority ≠ 0 then [dbLine 'L' (printInt d.devlinkPriority)] else []) ++
      (if d.watchHandle ≥ 0 then [dbLine 'W' (printInt d.watchHandle)] else [])
  let d₁ := (if major d.devnum > 0 then node else []).foldl readDbLine d₀
  let d₂ := (if d.usecInitialized > 0 then [dbLine 'I' (printNat d.usecInitialized)] else []).foldl readDbLine d₁
  let d₃ := ((stored d.sync.propertiesList).map fun e =>
    dbLine 'E' (e.name ++ str "=" ++ e.value.getD [])).foldl readDbLine d₂
  have hread : (dbLines d).foldl readDbLine d₀ = (d.tagsList.map fun e => dbLine 'G' e.name).foldl readDbLine d₃ := by
    simp only [dbLines,List.foldl_append]
    rfl
  have h₁ : (info d₁).usec = 0 ∧ (info d₁).properties = d₀.propertiesList ∧ (info d₁).tags = [] ∧
      (major d.devnum > 0 →
        (info d₁).devlinks = d.devlinksList.map (fun e => (⟨e.name,none,0⟩ : ListEntry)) ∧
        (info d₁).priority = d.devlinkPriority ∧ (info d₁).watch = d.watchHandle) := by
    by_cases hmajor : major d.devnum > 0
    · have hnode : d₁ = node.foldl readDbLine d₀ := by simp only [d₁,if_pos hmajor]
      rw [hnode,info_foldl_node hd h₀]
      exact ⟨h₀.usecInitialized,rfl,h₀.tagsList,fun _ => ⟨rfl,rfl,rfl⟩⟩
    · have hnode : d₁ = d₀ := by
        simp only [d₁,if_neg hmajor]
        rfl
      rw [hnode]
      exact ⟨h₀.usecInitialized,rfl,h₀.tagsList,fun h => absurd h hmajor⟩
  have h₂ : ∃ props : UdevList, info d₂ = { info d₁ with usec := d.usecInitialized, properties := props } ∧
      props.Sorted ∧ ∀ e ∈ props, e.num = 0 := by
    by_cases husec : d.usecInitialized > 0
    · refine ⟨(info d₁).properties.add (str "USEC_INITIALIZED") (some (printNat d.usecInitialized)),?_,?_,?_⟩
      · simp only [d₂,if_pos husec]
        exact info_readDbLine_usec d₁ hd.usec
      · rw [h₁.2.1]
        exact h₀.sorted.add _ _
      · intro e he
        rw [h₁.2.1,h₀.sorted.mem_add] at he
        rcases he with rfl | ⟨he,-⟩
        · cases hget : d₀.propertiesList.getByName (str "USEC_INITIALIZED") with
          | none => rfl
          | some x => exact h₀.num x (List.mem_of_find?_eq_some hget)
        · exact h₀.num e he
    · have husec : d.usecInitialized = 0 := by omega
      refine ⟨d₀.propertiesList,?_,h₀.sorted,h₀.num⟩
      have hsame : d₂ = d₁ := by
        simp only [d₂,husec]
        rfl
      rw [hsame,husec,← h₁.1,← h₁.2.1]
  obtain ⟨props,hinfo₂,hsorted,hnum⟩ := h₂
  have h₃ := info_foldl_properties d₂ (l := stored d.sync.propertiesList) (by
    intro e he
    obtain ⟨hname,-,-,value,hvalue,hne,-,-,hlen⟩ := hd.property e he
    refine ⟨hname,value,hvalue,hne,?_⟩
    have hequals : (str "=").length = 1 := rfl
    rw [List.length_append,List.length_append]
    omega)
  have h₄ := info_foldl_tags d₃ (l := d.tagsList) fun e he => ⟨(hd.tag e he).2.1,(hd.tag e he).2.2.1⟩
  have htags : (info d₃).tags = [] := by
    rw [h₃,hinfo₂]
    exact h₁.2.2.1
  rw [htags,hd.tags.foldl_add] at h₄
  intro i
  have hi : i = _ := (congrArg info hread).trans h₄
  rw [hi,h₃,hinfo₂]
  exact ⟨rfl,stored_foldl_properties (hd.properties.filter _) hsorted hnum,rfl,h₁.2.2.2⟩

/-- The database round trip: a file is written, and what is read from it are the time,
the stored properties and the tags, and for a device with a node also the links, their
priority and the watch. -/
theorem readDb_updateDb {d : Device} (hdev : major d.devnum > 0 ∨ d.ifindex > 0) (hd : DbOk d) {d₀ : Device}
    (h₀ : Fresh d₀) :
    ∃ file, updateDb d = some file ∧
      (readDb d₀ file).usecInitialized = d.usecInitialized ∧
      (stored (readDb d₀ file).propertiesList).map (fun e => (e.name,e.value)) =
        (stored d.sync.propertiesList).map (fun e => (e.name,e.value)) ∧
      (readDb d₀ file).tagsList.map (·.name) = d.tagsList.map (·.name) ∧
      (major d.devnum > 0 →
        (readDb d₀ file).devlinksList.map (·.name) = d.devlinksList.map (·.name) ∧
        (readDb d₀ file).devlinkPriority = d.devlinkPriority ∧ (readDb d₀ file).watchHandle = d.watchHandle) := by
  have hfile : ¬(hasInfo d = false ∧ major d.devnum = 0 ∧ d.ifindex = 0) := by
    rintro ⟨-,hmajor,hifindex⟩
    rcases hdev with h | h
    · exact absurd hmajor (UInt64.pos_iff_ne_zero.mp h)
    · omega
  refine ⟨_,if_neg hfile,?_⟩
  by_cases hinfo : hasInfo d = true
  · rw [if_pos hinfo,readDb_lines (lineOk_dbLines hd)]
    obtain ⟨husec,hprops,htags,hnode⟩ := info_foldl_dbLines hd h₀
    have hnames : ∀ l : UdevList, (l.map fun e => (⟨e.name,none,0⟩ : ListEntry)).map (·.name) = l.map (·.name) :=
      fun l => by rw [List.map_map]; rfl
    refine ⟨husec,?_,?_,?_⟩
    · refine (congrArg (List.map fun e => (e.name,e.value)) hprops).trans ?_
      rw [List.map_map]
      rfl
    · exact (congrArg (List.map (·.name)) htags).trans (hnames _)
    · intro hmajor
      obtain ⟨hlinks,hpriority,hwatch⟩ := hnode hmajor
      exact ⟨(congrArg (List.map (·.name)) hlinks).trans (hnames _),hpriority,hwatch⟩
  · rw [if_neg hinfo]
    have hread : readDb d₀ [] = d₀ := rfl
    have husec := hd.info.resolve_left hinfo
    have hrange := hd.watch
    simp only [hasInfo,Bool.or_eq_true,decide_eq_true_eq,not_or,not_not] at hinfo
    obtain ⟨⟨⟨⟨hlinks,hpriority⟩,hprops⟩,htags⟩,hwatch⟩ := hinfo
    have hnone : stored d₀.propertiesList = [] := List.filter_eq_nil_iff.mpr fun e he => by simp [h₀.num e he]
    rw [hread,husec,hlinks,hpriority,hprops,htags,hnone]
    refine ⟨h₀.usecInitialized,rfl,by rw [h₀.tagsList],?_⟩
    intro _
    refine ⟨by rw [h₀.devlinksList],h₀.devlinkPriority,?_⟩
    rw [h₀.watchHandle]
    omega

def storedDisk : Device where
  devnum := 0x800
  devlinksList := [⟨str "/dev/disk/by-label/root",none,0⟩,⟨str "/dev/root",none,0⟩]
  devlinkPriority := -10
  watchHandle := 3
  usecInitialized := 1234567
  propertiesList := [⟨str "DEVNAME",some (str "/dev/sda"),0⟩,⟨str "ID_BUS",some (str "ata"),1⟩]
  tagsList := [⟨str "seat",none,0⟩,⟨str "systemd",none,0⟩]

theorem dbOk_storedDisk : DbOk storedDisk where
  links := by unfold UdevList.Sorted; decide
  link := by decide
  priority := by decide
  watch := by decide
  usec := by decide
  properties := by unfold UdevList.Sorted; decide +kernel
  property := by
    have hstored : stored storedDisk.sync.propertiesList = [⟨str "ID_BUS",some (str "ata"),1⟩] := by decide +kernel
    rw [hstored]
    intro e he
    obtain rfl := List.mem_singleton.mp he
    exact ⟨by decide,by decide,by decide,str "ata",rfl,by decide,by decide,by decide,by decide⟩
  tags := by unfold UdevList.Sorted; decide
  tag := by decide
  info := Or.inl (by decide +kernel)

theorem fresh_empty : Fresh {} := ⟨rfl,rfl,rfl,rfl,rfl,List.Pairwise.nil,by simp⟩

theorem readDb_updateDb_disk : ∃ file, updateDb storedDisk = some file ∧
    (readDb {} file).usecInitialized = 1234567 ∧
    (stored (readDb {} file).propertiesList).map (fun e => (e.name,e.value)) =
      (stored storedDisk.sync.propertiesList).map (fun e => (e.name,e.value)) ∧
    (readDb {} file).tagsList.map (·.name) = storedDisk.tagsList.map (·.name) ∧
    (major storedDisk.devnum > 0 →
      (readDb {} file).devlinksList.map (·.name) = storedDisk.devlinksList.map (·.name) ∧
      (readDb {} file).devlinkPriority = -10 ∧ (readDb {} file).watchHandle = 3) :=
  readDb_updateDb (Or.inl (by decide)) dbOk_storedDisk fresh_empty

/-- A device without other information keeps no time; an empty value, an empty tag and a
tag with a newline are not read back. -/
theorem database_gaps :
    (∃ file, updateDb { devnum := 0x800, usecInitialized := 5 } = some file ∧ (readDb {} file).usecInitialized = 0) ∧
    (∃ file, updateDb { devnum := 0x800, propertiesList := [⟨str "ID_BUS",some [],1⟩] } = some file ∧
      stored (readDb {} file).propertiesList = []) ∧
    (∃ file, updateDb { devnum := 0x800, tagsList := [⟨[],none,0⟩,⟨str "seat",none,0⟩] } = some file ∧
      (readDb {} file).tagsList = []) ∧
    ∃ file, updateDb { devnum := 0x800, tagsList := [⟨str "a\nb",none,0⟩] } = some file ∧
      (readDb {} file).tagsList = [⟨str "a",none,0⟩] :=
  ⟨⟨[],by decide +kernel,by decide +kernel⟩,⟨str "E:ID_BUS=\n",by decide +kernel,by decide +kernel⟩,
    ⟨str "G:\nG:seat\n",by decide +kernel,by decide +kernel⟩,⟨str "G:a\nb\n",by decide +kernel,by decide +kernel⟩⟩

end Database
end Udev
