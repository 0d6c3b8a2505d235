import Udev.EnvpBuffer
import Udev.Runs
import Udev.UniqueList

/-! The properties of a device over its calls: DEVLINKS and TAGS are derived from the lists of
links and tags when the properties are read, and the environment is kept until a property is set. -/
namespace Udev
namespace Device

open CString Text

def devlinksText (l : UdevList) : CString := ((l.map (·.name)).intersperse (str " ")).flatten

def tagsText (l : UdevList) : CString := (str ":"::l.flatMap fun e => [e.name,str ":"]).flatten

def derivedText (text : UdevList → CString) (l : UdevList) : Option CString := if l = [] then none else some (text l)

/-- Where a derived property comes from: there is none, a caller gave it, or it was made of a list. -/
inductive Origin
  | absent | given (value : CString) | made (l : UdevList)
  deriving DecidableEq, Repr

namespace Origin

/-- What a read makes of it: a list that was changed and is not empty becomes the property. -/
def read (uptodate : Bool) (l : UdevList) (o : Origin) : Origin := if uptodate = true ∨ l = [] then o else .made l

def give (value : Option CString) : Origin := value.elim .absent .given

def value (make : UdevList → CString) : Origin → Option CString
  | absent => none
  | given v => some v
  | made l => some (make l)

/-- No property stands for an empty list. Another list is the one that the property was made of, with a text that
fits the buffer, or a caller gave its text. -/
def Fits (text : UdevList → CString) (l : UdevList) : Origin → Prop
  | absent => l = []
  | given v => l ≠ [] ∧ v = text l
  | made l' => l ≠ [] ∧ l' = l ∧ (text l).length < utilPathSize

instance (text : UdevList → CString) (l : UdevList) (o : Origin) : Decidable (o.Fits text l) :=
  match o with
  | absent => inferInstanceAs (Decidable (_ = _))
  | given _ | made _ => inferInstanceAs (Decidable (_ ∧ _))

end Origin

/-- A device, with the values that its properties were set to and the history of the derived ones. -/
structure Session where
  dev : Device
  props : CString → Option CString
  links : Origin
  tags : Origin

namespace Session

def start (d : Device) : Session := ⟨d,d.lookup,.give (d.lookup (str "DEVLINKS")),.give (d.lookup (str "TAGS"))⟩

def read (s : Session) : Session where
  dev := s.dev.sync
  props := s.props
  links := s.links.read s.dev.devlinksUptodate s.dev.devlinksList
  tags := s.tags.read s.dev.tagsUptodate s.dev.tagsList

inductive Call
  | addDevlink (devlink : CString) | cleanupDevlinksList | addTag (tag : CString) | cleanupTagsList
  | addProperty (key : CString) (value : Option CString) | getPropertiesListEntry | getPropertiesEnvp
  deriving DecidableEq, Repr

/-- `udev_device_add_property`, which reads the properties to delete one. -/
def addProperty (s : Session) (key : CString) (value : Option CString) : Session :=
  let r := if value = none then s.read else s
  { dev := value.elim (s.dev.deleteProperty key) (s.dev.setProperty key)
    props := Function.update s.props key value
    links := if key = str "DEVLINKS" then .give value else r.links
    tags := if key = str "TAGS" then .give value else r.tags }

def step (s : Session) : Call → Option Session
  | .addDevlink devlink => some { s with dev := s.dev.addDevlink devlink }
  | .cleanupDevlinksList => some { s with dev := s.dev.cleanupDevlinksList }
  | .addTag tag => some { s with dev := s.dev.addTag tag }
  | .cleanupTagsList => some { s with dev := s.dev.cleanupTagsList }
  | .addProperty key value => some (s.addProperty key value)
  | .getPropertiesListEntry => some s.read
  | .getPropertiesEnvp => some { (if s.dev.envpUptodate then s else s.read) with dev := s.dev.propertiesEnvp.2 }

def current (s : Session) (key : CString) : Option CString :=
  if key = str "DEVLINKS" then derivedText devlinksText s.dev.devlinksList
  else if key = str "TAGS" then derivedText tagsText s.dev.tagsList
  else s.props key

def ListCurrent (s : Session) (l : UdevList) : Prop :=
  (l.map (·.name)).Nodup ∧ ∀ key, (l.getByName key).bind (·.value) = s.current key

def EnvCurrent (s : Session) (env : List CString) : Prop :=
  ∃ l, s.ListCurrent l ∧ env = (publicProperties l).map assignment

/-- What a call returns is current; there may be no environment. -/
def Returns (s : Session) : Call → Prop
  | .getPropertiesListEntry => s.ListCurrent s.dev.sync.propertiesList
  | .getPropertiesEnvp => ∀ env, s.dev.propertiesEnvp.1 = some env → s.EnvCurrent env
  | _ => True

def Derived (s : Session) : Prop :=
  s.links.Fits devlinksText s.dev.devlinksList ∧ s.tags.Fits tagsText s.dev.tagsList

instance (s : Session) : Decidable s.Derived := inferInstanceAs (Decidable (_ ∧ _))

/-- What a call needs: the history fits when the properties were read, by the call itself or, for an environment
that is kept, before it. -/
def Settled (s : Session) : Call → Prop
  | .getPropertiesListEntry => s.read.Derived
  | .getPropertiesEnvp => if s.dev.envpUptodate then s.Derived else s.read.Derived
  | _ => True

instance (s : Session) (c : Call) : Decidable (s.Settled c) :=
  match c with
  | .getPropertiesListEntry => inferInstanceAs (Decidable s.read.Derived)
  | .getPropertiesEnvp => inferInstanceAs (Decidable (ite _ _ _))
  | .addDevlink _ | .cleanupDevlinksList | .addTag _ | .cleanupTagsList | .addProperty .. => isTrue trivial

structure Inv (s : Session) : Prop where
  sorted : s.dev.propertiesList.Sorted
  plain : ∀ key, Plain key → s.dev.lookup key = s.props key
  links : s.dev.lookup (str "DEVLINKS") = s.links.value devlinksValue
  tags : s.dev.lookup (str "TAGS") = s.tags.value tagsValue
  envp : s.dev.envpUptodate = true → envpLoop s.dev.propertiesList 0 4096 = some s.dev.envp

end Session
section Sync

variable {d : Device} {l : UdevList}

theorem lookup_syncDevlinks (d : Device) :
    d.syncDevlinks.lookup (str "DEVLINKS") =
      if d.devlinksUptodate = true ∨ d.devlinksList = [] then d.lookup (str "DEVLINKS")
      else some (devlinksValue d.devlinksList) := by
  rw [syncDevlinks]
  by_cases hup : d.devlinksUptodate = true
  · rw [if_pos hup,if_pos (Or.inl hup)]
  · by_cases hempty : d.devlinksList = []
    · rw [if_neg hup,if_pos hempty,if_pos (Or.inr hempty)]
      rfl
    · rw [if_neg hup,if_neg hempty,if_neg (not_or.mpr ⟨hup,hempty⟩),lookup_setProperty_self]

theorem lookup_syncTags (d : Device) :
    d.syncTags.lookup (str "TAGS") =
      if d.tagsUptodate = true ∨ d.tagsList = [] then d.lookup (str "TAGS") else some (tagsValue d.tagsList) := by
  rw [syncTags]
  by_cases hup : d.tagsUptodate = true
  · rw [if_pos hup,if_pos (Or.inl hup)]
  · by_cases hempty : d.tagsList = []
    · rw [if_neg hup,if_pos hempty,if_pos (Or.inr hempty)]
      rfl
    · rw [if_neg hup,if_neg hempty,if_neg (not_or.mpr ⟨hup,hempty⟩),lookup_setProperty_self]

theorem syncTags_devlinks (d : Device) :
    d.syncTags.lookup (str "DEVLINKS") = d.lookup (str "DEVLINKS") ∧ d.syncTags.devlinksUptodate = d.devlinksUptodate := by
  rw [syncTags]
  split_ifs
  · exact ⟨rfl,rfl⟩
  · exact ⟨rfl,rfl⟩
  · exact ⟨lookup_setProperty_ne _ (by decide),rfl⟩

theorem syncDevlinks_tags (d : Device) :
    d.syncDevlinks.lookup (str "TAGS") = d.lookup (str "TAGS") ∧ d.syncDevlinks.tagsUptodate = d.tagsUptodate ∧
      d.syncDevlinks.tagsList = d.tagsList := by
  rw [syncDevlinks]
  split_ifs
  · exact ⟨rfl,rfl,rfl⟩
  · exact ⟨rfl,rfl,rfl⟩
  · exact ⟨lookup_setProperty_ne _ (by decide),rfl,rfl⟩

theorem lookup_sync_devlinks (d : Device) :
    d.sync.lookup (str "DEVLINKS") =
      if d.devlinksUptodate = true ∨ d.devlinksList = [] then d.lookup (str "DEVLINKS")
      else some (devlinksValue d.devlinksList) := by
  rw [sync,(syncTags_devlinks _).1,lookup_syncDevlinks]

theorem lookup_sync_tags (d : Device) :
    d.sync.lookup (str "TAGS") =
      if d.tagsUptodate = true ∨ d.tagsList = [] then d.lookup (str "TAGS") else some (tagsValue d.tagsList) := by
  obtain ⟨hlookup,hup,hlist⟩ := syncDevlinks_tags d
  rw [sync,lookup_syncTags,hlookup,hup,hlist]

theorem sync_lists (d : Device) : d.sync.devlinksList = d.devlinksList ∧ d.sync.tagsList = d.tagsList := by
  have h := lists_sync d
  exact ⟨congrArg (·.1) h,congrArg (·.2.1) h⟩

theorem sync_sorted (h : d.propertiesList.Sorted) : d.sync.propertiesList.Sorted := by
  have hlinks : d.syncDevlinks.propertiesList.Sorted := by
    rw [syncDevlinks]
    split_ifs
    · exact h
    · exact h
    · exact h.add _ _
  rw [sync,syncTags]
  split_ifs
  · exact hlinks
  · exact hlinks
  · exact hlinks.add _ _

theorem sync_envp (h : d.sync.envpUptodate = true) :
    d.envpUptodate = true ∧ d.sync.propertiesList = d.propertiesList ∧ d.sync.envp = d.envp := by
  have hlinks : d.syncDevlinks.envpUptodate = true →
      d.envpUptodate = true ∧ d.syncDevlinks.propertiesList = d.propertiesList ∧ d.syncDevlinks.envp = d.envp := by
    rw [syncDevlinks]
    split_ifs
    · exact fun hup => ⟨hup,rfl,rfl⟩
    · exact fun hup => ⟨hup,rfl,rfl⟩
    · exact fun hup => by cases hup
  rw [sync,syncTags] at h ⊢
  split_ifs at h ⊢
  · exact hlinks h
  · exact hlinks h
  · cases h

end Sync

namespace Session

variable {s t : Session} {c : Call}

theorem Inv.read (h : s.Inv) : s.read.Inv where
  sorted := sync_sorted h.sorted
  plain := fun key hkey => (lookup_sync hkey s.dev).trans (h.plain key hkey)
  links := by
    show s.dev.sync.lookup (str "DEVLINKS") = (s.links.read _ _).value _
    rw [lookup_sync_devlinks,Origin.read]
    split_ifs
    · exact h.links
    · rfl
  tags := by
    show s.dev.sync.lookup (str "TAGS") = (s.tags.read _ _).value _
    rw [lookup_sync_tags,Origin.read]
    split_ifs
    · exact h.tags
    · rfl
  envp := by
    intro hup
    obtain ⟨hup,hlist,henvp⟩ := sync_envp hup
    show envpLoop s.dev.sync.propertiesList 0 4096 = some s.dev.sync.envp
    rw [hlist,henvp]
    exact h.envp hup

theorem value_give (make : UdevList → CString) (value : Option CString) : (Origin.give value).value make = value := by
  cases value <;> rfl

/-- A property that is set to a value, or deleted, on a device that has the others as they were. -/
theorem Inv.put (h : s.Inv) {d : Device} (key : CString) (value : Option CString) (hsorted : d.propertiesList.Sorted)
    (hself : d.lookup key = value) (hother : ∀ k, k ≠ key → d.lookup k = s.dev.lookup k)
    (henvp : d.envpUptodate = false) :
    Inv ⟨d,Function.update s.props key value,if key = str "DEVLINKS" then .give value else s.links,
      if key = str "TAGS" then .give value else s.tags⟩ where
  sorted := hsorted
  plain := by
    intro k hk
    by_cases heq : k = key
    · show d.lookup k = Function.update s.props key value k
      rw [heq,Function.update_self,hself]
    · exact (hother k heq).trans ((h.plain k hk).trans (Function.update_of_ne heq ..).symm)
  links := by
    show d.lookup _ = _
    by_cases heq : key = str "DEVLINKS"
    · rw [if_pos heq,value_give,← heq,hself]
    · rw [if_neg heq,hother _ (Ne.symm heq)]
      exact h.links
  tags := by
    show d.lookup _ = _
    by_cases heq : key = str "TAGS"
    · rw [if_pos heq,value_give,← heq,hself]
    · rw [if_neg heq,hother _ (Ne.symm heq)]
      exact h.tags
  envp := by
    intro hup
    rw [show d.envpUptodate = true from hup] at henvp
    cases henvp

theorem Inv.addProperty (h : s.Inv) (key : CString) (value : Option CString) : (s.addProperty key value).Inv := by
  cases value with
  | some value =>
    exact h.put key (some value) (h.sorted.add _ _) (lookup_setProperty_self ..)
      (fun k hk => lookup_setProperty_ne value hk) rfl
  | none =>
    have hread : ({ s with dev := { s.dev with envpUptodate := false } } : Session).read.Inv :=
      Inv.read ⟨h.sorted,h.plain,h.links,h.tags,fun hup => by cases hup⟩
    refine hread.put (d := s.dev.deleteProperty key) key none (hread.sorted.delete key) ?_ ?_ ?_
    · rw [lookup,Device.deleteProperty,UdevList.getByName_delete,Option.bind_none]
    · intro k hk
      exact congrArg (Option.bind · _) (UdevList.getByName_delete_ne hk)
    · cases hup : (s.dev.deleteProperty key).envpUptodate with
      | false => rfl
      | true =>
        obtain ⟨hold,-⟩ := sync_envp (d := { s.dev with envpUptodate := false }) hup
        cases hold

theorem Inv.propertiesEnvp (h : s.Inv) :
    ({ (if s.dev.envpUptodate then s else s.read) with dev := s.dev.propertiesEnvp.2 } : Session).Inv := by
  rw [Device.propertiesEnvp]
  by_cases hup : s.dev.envpUptodate = true
  · rw [if_pos hup,if_pos hup]
    exact h
  · rw [if_neg hup,if_neg hup]
    cases hloop : envpLoop s.dev.sync.propertiesList 0 4096 with
    | none =>
      simp only [hloop]
      exact h.read
    | some env =>
      simp only [hloop]
      exact ⟨h.read.sorted,h.read.plain,h.read.links,h.read.tags,fun _ => hloop⟩

theorem Inv.addTag (h : s.Inv) (tag : CString) : ({ s with dev := s.dev.addTag tag } : Session).Inv := by
  rw [Device.addTag]
  split_ifs
  · exact h
  · exact ⟨h.sorted,h.plain,h.links,h.tags,h.envp⟩

theorem step_inv (h : s.Inv) (hstep : s.step c = some t) : t.Inv := by
  cases c with
  | addDevlink _ | cleanupDevlinksList | cleanupTagsList =>
    obtain rfl := Option.some.inj hstep
    exact ⟨h.sorted,h.plain,h.links,h.tags,h.envp⟩
  | addTag tag =>
    obtain rfl := Option.some.inj hstep
    exact h.addTag tag
  | addProperty key value =>
    obtain rfl := Option.some.inj hstep
    exact h.addProperty key value
  | getPropertiesListEntry =>
    obtain rfl := Option.some.inj hstep
    exact h.read
  | getPropertiesEnvp =>
    obtain rfl := Option.some.inj hstep
    exact h.propertiesEnvp

theorem value_of_fits {make text : UdevList → CString} {l : UdevList} {o : Origin}
    (hmake : (text l).length < utilPathSize → make l = text l) (h : o.Fits text l) :
    o.value make = derivedText text l := by
  rw [derivedText]
  cases o with
  | absent => exact (if_pos h).symm
  | given v =>
    obtain ⟨hne,rfl⟩ := h
    exact (if_neg hne).symm
  | made l' =>
    obtain ⟨hne,rfl,hlen⟩ := h
    rw [if_neg hne,← hmake hlen]
    rfl

theorem Inv.listCurrent (h : s.Inv) (hok : s.Derived) : s.ListCurrent s.dev.propertiesList := by
  refine ⟨h.sorted.nodup_names,fun key => ?_⟩
  show s.dev.lookup key = _
  rw [current]
  split_ifs with hlinks htags
  · rw [hlinks,h.links]
    exact value_of_fits strscpyl_fits hok.1
  · rw [htags,h.tags]
    exact value_of_fits strscpyl_fits hok.2
  · exact h.plain key ⟨hlinks,htags⟩

theorem current_read : s.read.current = s.current := by
  funext key
  simp only [current,Session.read,sync_lists]

theorem Inv.read_current (h : s.Inv) (hok : s.read.Derived) : s.ListCurrent s.dev.sync.propertiesList := by
  obtain ⟨hnodup,hall⟩ := h.read.listCurrent hok
  exact ⟨hnodup,fun key => (hall key).trans (congrFun current_read key)⟩

theorem Inv.returns (h : s.Inv) (hok : s.Settled c) : s.Returns c := by
  cases c with
  | addDevlink _ | cleanupDevlinksList | addTag _ | cleanupTagsList | addProperty _ _ => trivial
  | getPropertiesListEntry => exact h.read_current hok
  | getPropertiesEnvp =>
    intro env henv
    have hlists : ite _ _ _ := hok
    rw [Device.propertiesEnvp] at henv
    by_cases hup : s.dev.envpUptodate = true
    · rw [if_pos hup] at henv hlists
      obtain rfl := Option.some.inj henv
      exact ⟨s.dev.propertiesList,h.listCurrent hlists,(envpLoop_strings (h.envp hup)).1⟩
    · rw [if_neg hup] at henv hlists
      refine ⟨s.dev.sync.propertiesList,h.read_current hlists,?_⟩
      cases hloop : envpLoop s.dev.sync.propertiesList 0 4096 with
      | none =>
        simp only [hloop] at henv
        cases henv
      | some envp =>
        simp only [hloop] at henv
        obtain rfl := Option.some.inj henv
        exact (envpLoop_strings hloop).1

/-- Over every sequence of calls whose reads find a history that fits, each list and environment is current. -/
theorem returns_current {d : Device} (hsorted : d.propertiesList.Sorted) (henvp : d.envpUptodate = false)
    {cs : List Call} (hok : Runs.Along step Settled (start d) cs) : Runs.Along step Returns (start d) cs := by
  have hstart : (start d).Inv := by
    refine ⟨hsorted,fun _ _ => rfl,(value_give _ _).symm,(value_give _ _).symm,fun htrue => ?_⟩
    rw [show d.envpUptodate = true from htrue] at henvp
    cases henvp
  exact Runs.along_mono Inv (fun _ _ _ hs _ hstep => step_inv hs hstep) (fun _ _ hs hok => hs.returns hok) hstart hok

theorem added_link_current :
    Runs.Along step Returns (start {})
      [.addDevlink (str "/dev/a"),.addTag (str "t"),.addProperty (str "A") (some (str "1")),.getPropertiesEnvp,
        .getPropertiesEnvp,.addProperty (str "DEVLINKS") (some (str "x")),.addDevlink (str "/dev/b"),
        .getPropertiesListEntry,.getPropertiesEnvp,.cleanupTagsList,.addProperty (str "TAGS") none,.getPropertiesEnvp] :=
  returns_current (d := {}) List.Pairwise.nil rfl (by decide +kernel)

/-- The links that were removed stay in DEVLINKS, and a new link does not come to the environment that is kept. -/
theorem changed_links_stay :
    ¬Runs.Along step Returns (start {})
        [.addDevlink (str "/dev/a"),.getPropertiesListEntry,.cleanupDevlinksList,.getPropertiesListEntry] ∧
      ¬Runs.Along step Returns (start {}) [.getPropertiesEnvp,.addDevlink (str "/dev/a"),.getPropertiesEnvp] := by
  constructor
  · rintro ⟨-,-,-,hlist,-⟩
    have hlinks := hlist.2 (str "DEVLINKS")
    revert hlinks
    decide +kernel
  · rintro ⟨-,-,henv,-⟩
    obtain ⟨l,hl,heq⟩ := henv [] rfl
    have hnil : publicProperties l = [] := List.map_eq_nil_iff.mp heq.symm
    have hlinks := hl.2 (str "DEVLINKS")
    cases hfind : l.getByName (str "DEVLINKS") with
    | none =>
      rw [hfind] at hlinks
      revert hlinks
      decide +kernel
    | some e =>
      have hname : e.name = str "DEVLINKS" := by simpa using List.find?_some hfind
      have hpublic : charAt e.name 0 ≠ chr '.' := by
        rw [hname]
        decide
      exact List.filter_eq_nil_iff.mp hnil e (List.mem_of_find?_eq_some hfind) (decide_eq_true hpublic)

end Session

end Device
end Udev
