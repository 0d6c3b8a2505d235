import Udev.Device
import Udev.Text

/-! The lists of a device as the rules change them. The properties DEVLINKS and TAGS
are derived from the lists of links and tags: they are brought up to date whenever
the properties are read. -/
namespace Udev
namespace Device

open CString Text

/-- Set a property to a value; the number of an entry says whether it is stored. -/
def setProperty (d : Device) (key value : CString) : Device :=
  { d with envpUptodate := false, propertiesList := d.propertiesList.add key (some value) }

def markStored (d : Device) (key : CString) : Device :=
  { d with propertiesList := d.propertiesList.setNum key 1 }

def devlinksValue (l : UdevList) : CString :=
  strscpyl utilPathSize ((l.map (·.name)).intersperse (str " "))

def tagsValue (l : UdevList) : CString :=
  strscpyl utilPathSize (str ":"::l.flatMap fun e => [e.name,str ":"])

def syncDevlinks (d : Device) : Device :=
  if d.devlinksUptodate then d
  else if d.devlinksList = [] then { d with devlinksUptodate := true }
  else { d with devlinksUptodate := true }.setProperty (str "DEVLINKS") (devlinksValue d.devlinksList)

def syncTags (d : Device) : Device :=
  if d.tagsUptodate then d
  else if d.tagsList = [] then { d with tagsUptodate := true }
  else { d with tagsUptodate := true }.setProperty (str "TAGS") (tagsValue d.tagsList)

/-- What `udev_device_get_properties_list_entry` does before it returns the list. -/
def sync (d : Device) : Device := d.syncDevlinks.syncTags

/-- `udev_device_get_property_value`, on a device that is up to date. -/
def lookup (d : Device) (key : CString) : Option CString :=
  (d.propertiesList.getByName key).bind (·.value)

/-- `udev_device_get_property_value`; the device is then as `sync` leaves it. -/
def propertyValue (d : Device) (key : CString) : Option CString := d.sync.lookup key

/-- `udev_device_add_property` with `NULL`. -/
def deleteProperty (d : Device) (key : CString) : Device :=
  let d := { d with envpUptodate := false }.sync
  { d with propertiesList := d.propertiesList.delete key }

def importProperty (d : Device) (key value : CString) : Device :=
  let d := d.setProperty key value
  if charAt key 0 ≠ chr '.' then d.markStored key else d

def addDevlink (d : Device) (devlink : CString) : Device :=
  { d with devlinksUptodate := false, devlinksList := d.devlinksList.add devlink none }

def cleanupDevlinksList (d : Device) : Device := { d with devlinksUptodate := false, devlinksList := [] }

def addTag (d : Device) (tag : CString) : Device :=
  if (strchr tag (chr ':')).isSome || (strchr tag (chr ' ')).isSome then d
  else { d with tagsUptodate := false, tagsList := d.tagsList.add tag none }

def cleanupTagsList (d : Device) : Device := { d with tagsUptodate := false, tagsList := [] }

def hasTag (d : Device) (tag : CString) : Bool := (d.tagsList.getByName tag).isSome

/-- The loop of `update_envp_monitor_buf` with the entries so far and the room left. -/
def envpLoop : UdevList → ℕ → ℕ → Option (List CString)
  | [], _, _ => some []
  | e::es, i, l =>
    if charAt e.name 0 = chr '.' then envpLoop es i l
    else if i+2 ≥ 128 then none
    else
      let r := [e.name,str "=",e.value.getD []].foldl strpcpy ([],l)
      if r.2 = 0 then none else (envpLoop es (i+1) (r.2-1)).map (r.1::·)

/-- `udev_device_get_properties_envp`; without an environment it is `NULL`. -/
def propertiesEnvp (d : Device) : Option (List CString) × Device :=
  if d.envpUptodate then (some d.envp,d)
  else
    let d := d.sync
    match envpLoop d.propertiesList 0 4096 with
    | none => (none,d)
    | some envp => (some envp,{ d with envp := envp, envpUptodate := true })

theorem envpLoop_cons {e : ListEntry} {es : UdevList} {i l : ℕ} (hname : charAt e.name 0 ≠ chr '.')
    (hi : i+2 < 128) (hfit : (e.name ++ str "=" ++ e.value.getD []).length < l) :
    envpLoop (e::es) i l =
      (envpLoop es (i+1) (l-(e.name ++ str "=" ++ e.value.getD []).length-1)).map
        ((e.name ++ str "=" ++ e.value.getD [])::·) := by
  have hflat : [e.name,str "=",e.value.getD []].flatten = e.name ++ str "=" ++ e.value.getD [] := by simp
  rw [envpLoop,if_neg hname,if_neg (by omega),foldl_strpcpy (by rw [hflat]; exact hfit),hflat]
  exact if_neg (Nat.sub_ne_zero_of_lt hfit)

/-- An environment has the strings of the properties that are not private, and each had room in the buffer. -/
theorem envpLoop_strings {l : UdevList} {i n : ℕ} {envp : List CString} (h : envpLoop l i n = some envp) :
    envp = (l.filter fun e => charAt e.name 0 ≠ chr '.').map (fun e => e.name ++ str "=" ++ e.value.getD []) ∧
      ∀ s ∈ envp, s.length < n := by
  induction l generalizing i n envp with
  | nil =>
    cases h
    exact ⟨rfl,by simp⟩
  | cons e es ih =>
    by_cases hname : charAt e.name 0 = chr '.'
    · rw [envpLoop,if_pos hname] at h
      rw [List.filter_cons_of_neg (by simpa using hname)]
      exact ih h
    · by_cases hi : i+2 ≥ 128
      · rw [envpLoop,if_neg hname,if_pos hi] at h
        cases h
      · by_cases hfit : (e.name ++ str "=" ++ e.value.getD []).length < n
        · rw [envpLoop_cons hname (by omega) hfit] at h
          obtain ⟨rest,hrest,rfl⟩ := Option.map_eq_some_iff.mp h
          obtain ⟨heq,hlen⟩ := ih hrest
          constructor
          · rw [List.filter_cons_of_pos (by simpa using hname),List.map_cons,← heq]
          · intro s hs
            rcases List.mem_cons.mp hs with rfl | hs
            · exact hfit
            · have := hlen s hs
              omega
        · have hfull : ([e.name,str "=",e.value.getD []].foldl strpcpy ([],n)).2 = 0 :=
            foldl_strpcpy_full (by simpa using Nat.le_of_not_lt hfit)
          rw [envpLoop,if_neg hname,if_neg hi] at h
          simp only [if_pos hfull] at h
          cases h

end Device

theorem UdevList.getByName_add_ne {l : UdevList} {name key : CString} (value : Option CString)
    (h : key ≠ name) : (l.add name value).getByName key = l.getByName key := by
  have hne : (name = key) = False := eq_false (Ne.symm h)
  induction l with
  | nil => simp [UdevList.add,UdevList.getByName,hne]
  | cons e es ih =>
    simp only [UdevList.add]
    split_ifs with h₁ h₂
    · have : (e.name = key) = False := by rw [h₁]; exact hne
      simp [UdevList.getByName,this]
    · simp [UdevList.getByName,hne]
    · by_cases hk : e.name = key
      · simp [UdevList.getByName,hk]
      · have : (e.name = key) = False := eq_false hk
        simpa [UdevList.getByName,this] using ih

theorem UdevList.getByName_setNum_ne {l : UdevList} {name key : CString} (num : ℤ) (h : key ≠ name) :
    (l.setNum name num).getByName key = l.getByName key := by
  induction l with
  | nil => rfl
  | cons e es ih =>
    by_cases hk : e.name = key
    · have hn : e.name ≠ name := hk ▸ h
      simp [UdevList.setNum,UdevList.getByName,hk,h]
    · by_cases hn : e.name = name
      · have : (name = key) = False := eq_false (Ne.symm h)
        simpa [UdevList.setNum,UdevList.getByName,hn,this] using ih
      · simpa [UdevList.setNum,UdevList.getByName,hk,hn] using ih

theorem UdevList.getByName_delete_ne {l : UdevList} {name key : CString} (h : key ≠ name) :
    (l.delete name).getByName key = l.getByName key := by
  induction l with
  | nil => rfl
  | cons e es ih =>
    by_cases hn : e.name = name
    · have hdel : UdevList.delete (e::es) name = UdevList.delete es name := by simp [UdevList.delete,hn]
      have hget : UdevList.getByName (e::es) key = UdevList.getByName es key :=
        List.find?_cons_of_neg (by simpa [hn] using Ne.symm h)
      rw [hdel,hget,ih]
    · have hdel : UdevList.delete (e::es) name = e::UdevList.delete es name := by simp [UdevList.delete,hn]
      rw [hdel]
      by_cases hk : e.name = key
      · simp [UdevList.getByName,hk]
      · simpa [UdevList.getByName,hk] using ih

namespace Device

/-- What the properties are not part of: the links, the tags and the number. -/
def lists (d : Device) : UdevList × UdevList × UInt64 := (d.devlinksList,d.tagsList,d.devnum)

@[simp] theorem lists_setProperty (d : Device) (key value : CString) :
    (d.setProperty key value).lists = d.lists := rfl

@[simp] theorem lists_markStored (d : Device) (key : CString) : (d.markStored key).lists = d.lists := rfl

@[simp] theorem lists_syncDevlinks (d : Device) : d.syncDevlinks.lists = d.lists := by
  unfold syncDevlinks
  split_ifs <;> rfl

@[simp] theorem lists_syncTags (d : Device) : d.syncTags.lists = d.lists := by
  unfold syncTags
  split_ifs <;> rfl

@[simp] theorem lists_sync (d : Device) : d.sync.lists = d.lists := by simp [sync]

@[simp] theorem lists_deleteProperty (d : Device) (key : CString) :
    (d.deleteProperty key).lists = d.lists :=
  (lists_sync { d with envpUptodate := false })

@[simp] theorem lists_importProperty (d : Device) (key value : CString) :
    (d.importProperty key value).lists = d.lists := by
  unfold importProperty
  dsimp only
  split_ifs <;> rfl

@[simp] theorem lists_propertiesEnvp (d : Device) : d.propertiesEnvp.2.lists = d.lists := by
  unfold propertiesEnvp
  split_ifs
  · rfl
  · dsimp only
    split
    · exact lists_sync d
    · exact lists_sync d

/-- A property that is not derived from a list. -/
def Plain (key : CString) : Prop := key ≠ str "DEVLINKS" ∧ key ≠ str "TAGS"

variable {d : Device} {key name : CString}

theorem lookup_setProperty_self (d : Device) (name value : CString) :
    (d.setProperty name value).lookup name = some value := by
  have hget : ∀ l : UdevList, ((l.add name (some value)).getByName name).bind (·.value) = some value := by
    intro l
    induction l with
    | nil => simp [UdevList.add,UdevList.getByName]
    | cons e es ih =>
      simp only [UdevList.add]
      split_ifs with h₁ h₂
      · simp [UdevList.getByName,h₁]
      · simp [UdevList.getByName]
      · rw [UdevList.getByName,List.find?_cons_of_neg (by simpa using h₁)]
        exact ih
  exact hget d.propertiesList

theorem lookup_setProperty_ne (value : CString) (h : key ≠ name) :
    (d.setProperty name value).lookup key = d.lookup key := by
  simp [lookup,setProperty,UdevList.getByName_add_ne _ h]

theorem lookup_markStored_ne (h : key ≠ name) : (d.markStored name).lookup key = d.lookup key := by
  simp [lookup,markStored,UdevList.getByName_setNum_ne _ h]

theorem lookup_sync (h : Plain key) (d : Device) : d.sync.lookup key = d.lookup key := by
  have htags : ∀ d : Device, d.syncTags.lookup key = d.lookup key := by
    intro d
    unfold syncTags
    split_ifs
    · rfl
    · rfl
    · exact lookup_setProperty_ne _ h.2
  have hlinks : ∀ d : Device, d.syncDevlinks.lookup key = d.lookup key := by
    intro d
    unfold syncDevlinks
    split_ifs
    · rfl
    · rfl
    · exact lookup_setProperty_ne _ h.1
  rw [sync,htags,hlinks]

theorem propertyValue_plain (h : Plain key) (d : Device) : d.propertyValue key = d.lookup key :=
  lookup_sync h d

theorem lookup_deleteProperty_ne (hp : Plain key) (h : key ≠ name) :
    (d.deleteProperty name).lookup key = d.lookup key := by
  have hsync := lookup_sync hp { d with envpUptodate := false }
  simp only [lookup,deleteProperty,UdevList.getByName_delete_ne h] at hsync ⊢
  exact hsync

theorem lookup_importProperty_ne (value : CString) (h : key ≠ name) :
    (d.importProperty name value).lookup key = d.lookup key := by
  unfold importProperty
  dsimp only
  split_ifs
  · rw [lookup_markStored_ne h,lookup_setProperty_ne value h]
  · exact lookup_setProperty_ne value h

theorem lookup_propertiesEnvp (hp : Plain key) (d : Device) :
    d.propertiesEnvp.2.lookup key = d.lookup key := by
  unfold propertiesEnvp
  split_ifs
  · rfl
  · dsimp only
    split
    · exact lookup_sync hp d
    · exact lookup_sync hp d

end Device

end Udev
