import Udev.Properties
import Udev.UniqueList

/-! The filter of a monitor: the matches that were added, and the test of a received
device. Removing the filter forgets the subsystems only. -/
namespace Udev
namespace Monitor

open CString Device

/-- `struct udev_monitor`: a list of subsystems with their devtypes and the unique list
of tags. -/
structure Filter where
  filterSubsystemList : UdevList := []
  filterTagList : UdevList := []
  deriving DecidableEq, Repr

/-- `udev_monitor_filter_add_match_subsystem_devtype`; without a subsystem it fails. -/
def filterAddMatchSubsystemDevtype (m : Filter) (subsystem devtype : Option CString) : Filter :=
  subsystem.elim m fun s => { m with filterSubsystemList := m.filterSubsystemList.append s devtype 0 }

/-- `udev_monitor_filter_add_match_tag`; without a tag it fails. -/
def filterAddMatchTag (m : Filter) (tag : Option CString) : Filter :=
  tag.elim m fun t => { m with filterTagList := m.filterTagList.add t none }

/-- `udev_monitor_filter_remove`. -/
def filterRemove (m : Filter) : Filter := { m with filterSubsystemList := [] }

/-- One round of the loop of `passes_filter` over the subsystems. -/
def matchesSubsystem (d : Device) (e : ListEntry) : Bool :=
  d.subsystem = some e.name && (e.value.isNone || d.devtype = e.value)

def passesFilter (m : Filter) (d : Device) : Bool :=
  (m.filterSubsystemList.isEmpty || m.filterSubsystemList.any (matchesSubsystem d)) &&
  (m.filterTagList.isEmpty || m.filterTagList.any fun e => d.hasTag e.name)

inductive Call
  | addSubsystem (subsystem devtype : Option CString) | addTag (tag : Option CString) | remove
  deriving DecidableEq, Repr

def call (m : Filter) : Call → Filter
  | .addSubsystem s v => filterAddMatchSubsystemDevtype m s v
  | .addTag t => filterAddMatchTag m t
  | .remove => filterRemove m

/-- The filter of a new monitor after some calls. -/
def calls (cs : List Call) : Filter := cs.foldl call {}

def sinceRemove (cs : List Call) : List Call := (cs.reverse.takeWhile (· ≠ .remove)).reverse

/-- What the interface promises: the device has one of the subsystems and one of the tags
that were added since the last remove, where no match stands for any device. -/
def Accepts (cs : List Call) (d : Device) : Prop :=
  ((∀ s v, .addSubsystem (some s) v ∉ sinceRemove cs) ∨
    ∃ s v, .addSubsystem (some s) v ∈ sinceRemove cs ∧ d.subsystem = some s ∧ (v = none ∨ d.devtype = v)) ∧
  ((∀ t, .addTag (some t) ∉ sinceRemove cs) ∨ ∃ t, .addTag (some t) ∈ sinceRemove cs ∧ d.hasTag t = true)

theorem sinceRemove_append (cs : List Call) (c : Call) :
    sinceRemove (cs ++ [c]) = if c = .remove then [] else sinceRemove cs ++ [c] := by
  by_cases hc : c = .remove <;> simp [sinceRemove,hc]

theorem calls_append (cs : List Call) (c : Call) : calls (cs ++ [c]) = call (calls cs) c := by
  simp [calls]

theorem mem_calls_subsystems (cs : List Call) (s : CString) (v : Option CString) :
    ⟨s,v,0⟩ ∈ (calls cs).filterSubsystemList ↔ .addSubsystem (some s) v ∈ sinceRemove cs := by
  induction cs using List.reverseRecOn with
  | nil => simp [calls,sinceRemove]
  | append_singleton cs c ih =>
    rw [calls_append,sinceRemove_append]
    cases c with
    | remove => simp [call,filterRemove]
    | addTag t => cases t <;> simpa [call,filterAddMatchTag] using ih
    | addSubsystem s' v' =>
      cases s' with
      | none => simpa [call,filterAddMatchSubsystemDevtype] using ih
      | some s' => simp [call,filterAddMatchSubsystemDevtype,UdevList.append,ih]

theorem num_calls_subsystems (cs : List Call) : ∀ e ∈ (calls cs).filterSubsystemList, e.num = 0 := by
  induction cs using List.reverseRecOn with
  | nil => simp [calls]
  | append_singleton cs c ih =>
    rw [calls_append]
    cases c with
    | remove => simp [call,filterRemove]
    | addTag t => cases t <;> exact ih
    | addSubsystem s v =>
      cases s with
      | none => exact ih
      | some s =>
        intro e he
        rcases List.mem_append.mp he with he | he
        · exact ih e he
        · rw [List.mem_singleton.mp he]

theorem sorted_calls_tags (cs : List Call) : (calls cs).filterTagList.Sorted := by
  induction cs using List.reverseRecOn with
  | nil => exact List.Pairwise.nil
  | append_singleton cs c ih =>
    rw [calls_append]
    cases c with
    | remove => exact ih
    | addSubsystem s v => cases s <;> exact ih
    | addTag t =>
      cases t with
      | none => exact ih
      | some t => exact ih.add t none

theorem mem_calls_tags (cs : List Call) (t : CString) :
    t ∈ (calls cs).filterTagList.map (·.name) ↔ .addTag (some t) ∈ cs := by
  induction cs using List.reverseRecOn with
  | nil => simp [calls]
  | append_singleton cs c ih =>
    rw [calls_append]
    cases c with
    | remove => simpa [call,filterRemove] using ih
    | addSubsystem s v => cases s <;> simpa [call,filterAddMatchSubsystemDevtype] using ih
    | addTag t' =>
      cases t' with
      | none => simpa [call,filterAddMatchTag] using ih
      | some t' =>
        simp only [call,filterAddMatchTag,Option.elim_some,UdevList.mem_add_name,ih]
        simp [or_comm]

theorem hasTag_iff {d : Device} {t : CString} : d.hasTag t = true ↔ t ∈ d.tagsList.map (·.name) := by
  simp [hasTag,UdevList.getByName,List.find?_isSome]

theorem isEmpty_calls_subsystems (cs : List Call) :
    (calls cs).filterSubsystemList.isEmpty = true ↔ ∀ s v, .addSubsystem (some s) v ∉ sinceRemove cs := by
  rw [List.isEmpty_iff,List.eq_nil_iff_forall_not_mem]
  constructor
  · intro h s v hmem
    exact h _ ((mem_calls_subsystems cs s v).mpr hmem)
  · rintro h ⟨s,v,n⟩ he
    obtain rfl : n = 0 := num_calls_subsystems cs _ he
    exact h s v ((mem_calls_subsystems cs s v).mp he)

theorem any_calls_subsystems (cs : List Call) (d : Device) :
    (calls cs).filterSubsystemList.any (matchesSubsystem d) = true ↔
      ∃ s v, .addSubsystem (some s) v ∈ sinceRemove cs ∧ d.subsystem = some s ∧ (v = none ∨ d.devtype = v) := by
  simp only [List.any_eq_true,matchesSubsystem,Bool.and_eq_true,Bool.or_eq_true,decide_eq_true_eq,
    Option.isNone_iff_eq_none]
  constructor
  · rintro ⟨⟨s,v,n⟩,he,hd⟩
    obtain rfl : n = 0 := num_calls_subsystems cs _ he
    exact ⟨s,v,(mem_calls_subsystems cs s v).mp he,hd⟩
  · rintro ⟨s,v,hmem,hd⟩
    exact ⟨_,(mem_calls_subsystems cs s v).mpr hmem,hd⟩

/-- The test of a device in terms of the calls: the tags are those ever added. -/
theorem passesFilter_calls (cs : List Call) (d : Device) :
    passesFilter (calls cs) d = true ↔
      ((∀ s v, .addSubsystem (some s) v ∉ sinceRemove cs) ∨
        ∃ s v, .addSubsystem (some s) v ∈ sinceRemove cs ∧ d.subsystem = some s ∧ (v = none ∨ d.devtype = v)) ∧
      ((∀ t, .addTag (some t) ∉ cs) ∨ ∃ t, .addTag (some t) ∈ cs ∧ d.hasTag t = true) := by
  have hnone : (calls cs).filterTagList.isEmpty = true ↔ ∀ t, .addTag (some t) ∉ cs := by
    simp only [← mem_calls_tags]
    rw [List.isEmpty_iff,← List.map_eq_nil_iff (f := fun e : ListEntry => e.name),
      List.eq_nil_iff_forall_not_mem]
  have hany : ((calls cs).filterTagList.any fun e => d.hasTag e.name) = true ↔
      ∃ t, .addTag (some t) ∈ cs ∧ d.hasTag t = true := by
    simp only [← mem_calls_tags,List.any_eq_true,List.mem_map]
    exact ⟨fun ⟨e,he,hd⟩ => ⟨e.name,⟨e,he,rfl⟩,hd⟩,fun ⟨_,⟨e,he,rfl⟩,hd⟩ => ⟨e,he,hd⟩⟩
  simp only [passesFilter,Bool.and_eq_true,Bool.or_eq_true,isEmpty_calls_subsystems,any_calls_subsystems,
    hnone,hany]

theorem exists_subsystem_passes (cs : List Call) : ∃ subsystem devtype,
    (∀ s v, .addSubsystem (some s) v ∉ sinceRemove cs) ∨
      ∃ s v, .addSubsystem (some s) v ∈ sinceRemove cs ∧ subsystem = some s ∧ (v = none ∨ devtype = v) := by
  by_cases h : ∃ s v, .addSubsystem (some s) v ∈ sinceRemove cs
  · obtain ⟨s,v,hmem⟩ := h
    exact ⟨some s,v,Or.inr ⟨s,v,hmem,rfl,Or.inr rfl⟩⟩
  · exact ⟨none,none,Or.inl fun s v hmem => h ⟨s,v,hmem⟩⟩

theorem mem_of_mem_sinceRemove {cs : List Call} {c : Call} (h : c ∈ sinceRemove cs) : c ∈ cs := by
  simp only [sinceRemove,List.mem_reverse] at h
  simpa using (List.takeWhile_prefix _).subset h

/-- The test accepts what the interface promises for every device exactly when each tag
that was added before the last remove was added again after it. -/
theorem filter_exact_iff (cs : List Call) :
    (∀ d, passesFilter (calls cs) d = true ↔ Accepts cs d) ↔
      ∀ t, .addTag (some t) ∈ cs → .addTag (some t) ∈ sinceRemove cs := by
  constructor
  · intro h t ht
    by_contra hnot
    obtain ⟨subsystem,devtype,hsub⟩ := exists_subsystem_passes cs
    by_cases hsince : ∀ t, .addTag (some t) ∉ sinceRemove cs
    · have hd := (passesFilter_calls cs _).mp
        ((h { subsystem := subsystem, devtype := devtype }).mpr ⟨hsub,Or.inl hsince⟩)
      rcases hd.2 with hno | ⟨_,_,htag⟩
      · exact hno t ht
      · cases htag
    · have hd := (h { subsystem := subsystem, devtype := devtype, tagsList := [⟨t,none,0⟩] }).mp
        ((passesFilter_calls cs _).mpr ⟨hsub,Or.inr ⟨t,ht,hasTag_iff.mpr (by simp)⟩⟩)
      rcases hd.2 with hno | ⟨t',ht',htag⟩
      · exact hsince hno
      · obtain rfl : t' = t := by simpa using hasTag_iff.mp htag
        exact hnot ht'
  · intro h d
    have hmem : ∀ t, .addTag (some t) ∈ sinceRemove cs ↔ .addTag (some t) ∈ cs := fun t =>
      ⟨mem_of_mem_sinceRemove,h t⟩
    simp only [passesFilter_calls,Accepts,hmem]

/-- A removed tag still keeps devices without it out. -/
theorem removed_tag_still_filters :
    passesFilter (calls [.addTag (some (str "seat")),.remove]) {} = false ∧
      Accepts [.addTag (some (str "seat")),.remove] {} := by
  refine ⟨by decide,Or.inl ?_,Or.inl ?_⟩ <;> simp [sinceRemove]

end Monitor
end Udev
