import Udev.DeviceSteps
import Udev.UniqueList

/-! What the operations on the device of an event keep: the fields that none of them touches, and
that its tags are valid. -/
namespace Udev
namespace Device

open CString

variable {storable : CString → Prop}

def kept (d : Device) : Option CString × Option CString × UInt64 × ℤ × ℤ :=
  (d.devnode,d.subsystem,d.devnum,d.ifindex,d.watchHandle)

@[simp] theorem kept_setProperty (d : Device) (key value : CString) : (d.setProperty key value).kept = d.kept := rfl

@[simp] theorem kept_markStored (d : Device) (key : CString) : (d.markStored key).kept = d.kept := rfl

@[simp] theorem kept_sync (d : Device) : d.sync.kept = d.kept := by
  unfold sync syncTags syncDevlinks
  split_ifs <;> rfl

@[simp] theorem kept_deleteProperty (d : Device) (key : CString) : (d.deleteProperty key).kept = d.kept :=
  kept_sync { d with envpUptodate := false }

@[simp] theorem kept_addTag (d : Device) (tag : CString) : (d.addTag tag).kept = d.kept := by
  unfold addTag
  split_ifs <;> rfl

theorem kept_change {d d' : Device} (h : Change storable d d') : d'.kept = d.kept := by
  cases h with
  | setProperty | markStored | addDevlink | cleanupDevlinksList | cleanupTagsList | dbPersist | devlinkPriority => rfl
  | sync => exact kept_sync d
  | deleteProperty => exact kept_deleteProperty d _
  | addTag => exact kept_addTag d _
  | propertiesEnvp =>
    unfold propertiesEnvp
    split_ifs
    · rfl
    · dsimp only
      split
      · exact kept_sync d
      · exact kept_sync d

theorem Evolves.kept {d d' : Device} (h : Evolves storable d d') : d'.kept = d.kept :=
  h.invariant (fun _ _ hchange heq => (kept_change hchange).trans heq) rfl

def ValidTag (tag : CString) : Prop := chr ':' ∉ tag ∧ chr ' ' ∉ tag

instance (tag : CString) : Decidable (ValidTag tag) := inferInstanceAs (Decidable (_ ∧ _))

theorem mem_addTag {d : Device} {tag t : CString} :
    t ∈ (d.addTag tag).tagsList.map (·.name) ↔ t = tag ∧ ValidTag tag ∨ t ∈ d.tagsList.map (·.name) := by
  have hbad : ((strchr tag (chr ':')).isSome || (strchr tag (chr ' ')).isSome) = true ↔ ¬ValidTag tag := by
    rw [Bool.or_eq_true,strchr_isSome,strchr_isSome,ValidTag]
    tauto
  unfold addTag
  by_cases htag : ValidTag tag
  · rw [if_neg (mt hbad.mp (not_not.mpr htag)),UdevList.mem_add_name]
    simp [htag]
  · rw [if_pos (hbad.mpr htag)]
    simp [htag]

def ValidTags (d : Device) : Prop := ∀ t ∈ d.tagsList.map (·.name), ValidTag t

instance (d : Device) : Decidable (ValidTags d) := inferInstanceAs (Decidable (∀ t ∈ _, _))

theorem validTags_change {d d' : Device} (h : Change storable d d') (hd : ValidTags d) : ValidTags d' := by
  have hlists : d'.lists.2.1 = d.lists.2.1 → ValidTags d' := fun heq t ht => hd t (by rwa [← show d'.tagsList = d.tagsList from heq])
  cases h with
  | setProperty | markStored | addDevlink | cleanupDevlinksList | dbPersist | devlinkPriority => exact hd
  | sync => exact hlists (congrArg (·.2.1) (lists_sync d))
  | deleteProperty key => exact hlists (congrArg (·.2.1) (lists_deleteProperty d key))
  | propertiesEnvp => exact hlists (congrArg (·.2.1) (lists_propertiesEnvp d))
  | addTag tag =>
    intro t ht
    rcases mem_addTag.mp ht with ⟨rfl,hvalid⟩ | ht
    · exact hvalid
    · exact hd t ht
  | cleanupTagsList =>
    intro t ht
    exact absurd ht List.not_mem_nil

end Device

namespace Rules

open Device

theorem applyToEvent_evolves {σ : Type} {h : Host σ} {ts : List Token} (ev : Event) (s : σ) :
    Evolves (fun _ => True) ev.dev (applyToEvent h ts ev s).dev := by
  unfold applyToEvent
  cases hlast : (applyVisits h ts ev s).getLast? with
  | none => exact .refl
  | some c =>
    have hstep : ∀ c c' : Config σ, Evolves (fun _ => True) ev.dev c.state.event.dev →
        step h ts (canSetName ev) c = some c' → Evolves (fun _ => True) ev.dev c'.state.event.dev :=
      fun _ _ hc hs => hc.trans (step_evolves (fun _ _ => trivial) hs fun _ _ _ => trivial)
    exact Runs.visits_invariant hstep .refl (List.mem_of_getLast? hlast)

end Rules
end Udev
