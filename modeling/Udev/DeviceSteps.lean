import Udev.Interpreter
import Mathlib.Logic.Relation

/-! What a token of the rules can do to the device: a few operations, one after the
other. What each operation keeps, every run keeps. -/
namespace Udev
namespace Device

open CString

/-- One operation on the device while the rules are applied; only some properties may be marked as stored. -/
inductive Change (storable : CString → Prop) (d : Device) : Device → Prop
  | setProperty (key value : CString) : Change storable d (d.setProperty key value)
  | markStored (key : CString) (h : storable key) : Change storable d (d.markStored key)
  | sync : Change storable d d.sync
  | deleteProperty (key : CString) : Change storable d (d.deleteProperty key)
  | propertiesEnvp : Change storable d d.propertiesEnvp.2
  | addDevlink (devlink : CString) : Change storable d (d.addDevlink devlink)
  | cleanupDevlinksList : Change storable d d.cleanupDevlinksList
  | addTag (tag : CString) : Change storable d (d.addTag tag)
  | cleanupTagsList : Change storable d d.cleanupTagsList
  | dbPersist : Change storable d { d with dbPersist := true }
  | devlinkPriority (priority : ℤ) : Change storable d { d with devlinkPriority := priority }

abbrev Evolves (storable : CString → Prop) : Device → Device → Prop := Relation.ReflTransGen (Change storable)

theorem Evolves.invariant {storable : CString → Prop} {Inv : Device → Prop}
    (hchange : ∀ d d', Change storable d d' → Inv d → Inv d') {d d' : Device} (h : Evolves storable d d') (hd : Inv d) :
    Inv d' := by
  induction h with
  | refl => exact hd
  | tail _ hlast ih => exact hchange _ _ hlast ih

end Device

namespace Rules

open CString RuleLine Text Device

def Public (key : CString) : Prop := CString.charAt key 0 ≠ chr '.'

/-- `IMPORT{db}` and `IMPORT{cmdline}` of a private property that is there: the two imports
that store a property whatever its name is. -/
def ImportsPrivate {σ : Type} (h : Host σ) (st : State σ) (k : KeyToken) : Prop :=
  ¬Public k.value ∧
    (k.type = .mImportDb ∧ (st.event.devDb.bind (·.propertyValue k.value)).isSome ∨
      k.type = .mImportCmdline ∧ (cmdlineImports h st.host k.value).isSome)

def StoresOnly (storable : CString → Prop) (l : List Imported) : Prop := ∀ i ∈ l, i.stored = true → storable i.key

section Tokens

variable {storable : CString → Prop} {σ : Type} {h : Host σ}

theorem evolves_touch (ev : Event) (read : Bool) : Evolves storable ev.dev (ev.touch read).dev := by
  unfold Event.touch
  split_ifs
  · exact .single .sync
  · exact .refl

theorem evolves_format (st : State σ) (src : CString) (size : ℕ) :
    Evolves storable st.event.dev (st.format h src size).2.event.dev :=
  evolves_touch _ _

theorem evolves_spawn (st : State σ) (program : CString) :
    Evolves storable st.event.dev (spawn h st program).2.event.dev :=
  .single .propertiesEnvp

theorem evolves_importAll (l : List Imported) (hl : StoresOnly storable l) (d : Device) :
    Evolves storable d (importAll l d) := by
  induction l generalizing d with
  | nil => exact .refl
  | cons i l ih =>
    have hone : Evolves storable d (importOne d i) := by
      unfold importOne
      split
      · exact .single (.deleteProperty _)
      · next value _ =>
        have hset : Evolves storable d (d.setProperty i.key value) := .single (.setProperty _ _)
        dsimp only
        split_ifs with hstored
        · exact hset.tail (.markStored _ (hl i List.mem_cons_self hstored))
        · exact hset
    exact hone.trans (ih (fun j hj => hl j (List.mem_cons_of_mem _ hj)) _)

theorem evolves_assignTag (st : State σ) (k : KeyToken) :
    Evolves storable st.event.dev (assignTag h st k).event.dev := by
  have hformat : Evolves storable st.event.dev _ := evolves_format (h := h) st k.value utilPathSize
  unfold assignTag
  dsimp only
  split_ifs
  · exact (hformat.tail .cleanupTagsList).tail (.addTag _)
  · exact hformat.tail (.addTag _)

theorem evolves_assignName (st : State σ) (k : KeyToken) :
    Evolves storable st.event.dev (assignName h st k).event.dev := by
  unfold assignName
  split_ifs
  · exact .refl
  · dsimp only
    split_ifs
    · exact evolves_format (h := h) (st.markName k.op) _ _
    · exact evolves_format (h := h) (st.markName k.op) _ _

theorem evolves_addDevlinks (names : List CString) (d : Device) :
    Evolves storable d (names.foldl (fun d n => d.addDevlink (strscpyl utilPathSize [str "/dev/",n])) d) := by
  induction names generalizing d with
  | nil => exact .refl
  | cons n names ih => exact .head (.addDevlink _) (ih _)

theorem evolves_assignDevlink (st : State σ) (k : KeyToken) :
    Evolves storable st.event.dev (assignDevlink h st k).event.dev := by
  have hstart : Evolves storable st.event.dev (st.startDevlinks k.op).event.dev := by
    unfold State.startDevlinks
    dsimp only
    split_ifs
    · exact .single .cleanupDevlinksList
    · exact .refl
  unfold assignDevlink
  split_ifs
  · exact .refl
  · exact .refl
  · exact (hstart.trans (evolves_format _ _ _)).trans (evolves_addDevlinks _ _)

theorem evolves_importProgram (st : State σ) (k : KeyToken) :
    Evolves storable st.event.dev (importProgram h st k).state.event.dev :=
  (evolves_format st _ _).trans (evolves_spawn _ _)

theorem evolves_runBuiltin (st : State σ) (k : KeyToken) :
    Evolves storable st.event.dev (runBuiltin h st k).state.event.dev := by
  have htouch : Evolves storable st.event.dev _ :=
    (evolves_format (h := h) st k.value utilPathSize).trans (evolves_touch _ (h.builtinRun
      (st.format h k.value utilPathSize).2.host (st.format h k.value utilPathSize).2.event.dev
      (st.format h k.value utilPathSize).2.event.parents k.builtinCmd
      (st.format h k.value utilPathSize).1).touched)
  unfold runBuiltin
  dsimp only
  split_ifs
  · exact htouch
  · exact htouch

theorem evolves_importBuiltin (st : State σ) (k : KeyToken) :
    Evolves storable st.event.dev (importBuiltin h st k).state.event.dev := by
  unfold importBuiltin
  split_ifs
  · exact .refl
  · exact evolves_runBuiltin (h := h)
      { st with event := { st.event with builtinRun := k.builtinCmd::st.event.builtinRun } } k
  · exact evolves_runBuiltin st k

theorem evolves_matchProgram (st : State σ) (k : KeyToken) :
    Evolves storable st.event.dev (matchProgram h st k).2.event.dev := by
  let st₀ : State σ := { st with event := { st.event with programResult := none } }
  have hrun : Evolves storable st₀.event.dev _ := (evolves_format (h := h) st₀ k.value utilPathSize).trans
    (evolves_spawn (h := h) (st₀.format h k.value utilPathSize).2 (st₀.format h k.value utilPathSize).1)
  unfold matchProgram
  dsimp only
  split
  · exact hrun
  · exact hrun

theorem storesOnly_of {r : Option (List Imported)} (hr : ∀ l, r = some l → StoresOnly storable l) (st : State σ) :
    StoresOnly storable (Import.of r st).list := by
  cases r with
  | none => exact fun i hi => absurd hi (List.not_mem_nil)
  | some l => exact hr l rfl

theorem cmdlineImports_key {s : σ} {key : CString} {l : List Imported} (hl : cmdlineImports h s key = some l) :
    ∀ i ∈ l, i.key = key := by
  unfold cmdlineImports at hl
  obtain ⟨content,-,hl⟩ := Option.bind_eq_some_iff.mp hl
  obtain ⟨line,-,hl⟩ := Option.bind_eq_some_iff.mp hl
  obtain ⟨pos,-,hl⟩ := Option.bind_eq_some_iff.mp hl
  split_ifs at hl
  all_goals
    cases hl
    intro i hi
    rw [List.mem_singleton.mp hi]

section Stores

variable (hpublic : ∀ key, Public key → storable key)
include hpublic

theorem storable_imported (key : CString) (value : Option CString) (hstored : (imported key value).stored = true) :
    storable (imported key value).key := by
  have hname : CString.charAt key 0 ≠ chr '.' := by simpa [imported] using hstored
  exact hpublic key hname

theorem storesOnly_lines (lines : List CString) : StoresOnly storable (lines.filterMap importLine) := by
  intro i hi
  obtain ⟨line,-,hline⟩ := List.mem_filterMap.mp hi
  unfold importLine at hline
  dsimp only at hline
  split_ifs at hline
  obtain ⟨rest,-,hline⟩ := Option.bind_eq_some_iff.mp hline
  split_ifs at hline
  all_goals
    cases hline
    exact storable_imported hpublic _ _

theorem storesOnly_runBuiltin (st : State σ) (k : KeyToken) : StoresOnly storable (runBuiltin h st k).list := by
  intro i hi
  obtain ⟨a,-,rfl⟩ := List.mem_map.mp hi
  exact storable_imported hpublic _ _

theorem storesOnly_importBuiltin (st : State σ) (k : KeyToken) : StoresOnly storable (importBuiltin h st k).list := by
  unfold importBuiltin
  split_ifs
  · exact fun i hi => absurd hi List.not_mem_nil
  · exact storesOnly_runBuiltin hpublic _ k
  · exact storesOnly_runBuiltin hpublic st k

theorem evolves_importProperty (d : Device) (key value : CString) : Evolves storable d (d.importProperty key value) := by
  have hset : Evolves storable d (d.setProperty key value) := .single (.setProperty key value)
  unfold importProperty
  dsimp only
  split_ifs with hkey
  · exact hset.tail (.markStored key (hpublic key hkey))
  · exact hset

theorem evolves_assignEnv (st : State σ) (k : KeyToken) :
    Evolves storable st.event.dev (assignEnv h st k).event.dev := by
  unfold assignEnv
  by_cases hv : k.value = []
  · rw [if_pos hv]
    split_ifs
    · exact .refl
    · exact .single (.deleteProperty _)
  · rw [if_neg hv]
    let st₀ : State σ := { st with event := st.event.touch (k.op = .opAdd) }
    have htouch : Evolves storable st.event.dev st₀.event.dev := evolves_touch _ _
    exact (htouch.trans (evolves_format st₀ _ _)).trans (evolves_importProperty hpublic _ _ _)

theorem evolves_assignToken (st : State σ) (k : KeyToken) :
    Evolves storable st.event.dev (assignToken h st k).event.dev := by
  unfold assignToken
  dsimp only
  split
  · exact .refl
  · exact .refl
  · exact .single .dbPersist
  · split_ifs <;> exact .refl
  · exact .single (.devlinkPriority _)
  · split_ifs
    · exact .refl
    · exact evolves_format st _ _
  · split_ifs
    · exact .refl
    · exact evolves_format st _ _
  · unfold assignModeText
    dsimp only
    split_ifs
    · exact .refl
    · exact evolves_format st _ _
    · exact evolves_format st _ _
  · split_ifs <;> exact .refl
  · split_ifs <;> exact .refl
  · split_ifs <;> exact .refl
  · exact .refl
  · exact evolves_assignEnv hpublic st k
  · exact evolves_assignTag st k
  · exact evolves_assignName st k
  · exact evolves_assignDevlink st k
  · exact evolves_format st _ _
  · exact .refl
  · exact .refl
  · exact .refl

theorem evolves_importOf {st : State σ} {k : KeyToken} {i : Import σ} (hi : importOf h st k = some i)
    (hk : ImportsPrivate h st k → storable k.value) : Evolves storable st.event.dev i.result.event.dev := by
  have hresult : Evolves storable st.event.dev i.state.event.dev → StoresOnly storable i.list →
      Evolves storable st.event.dev i.result.event.dev :=
    fun hstate hlist => hstate.trans (evolves_importAll i.list hlist _)
  have hvalue : (¬Public k.value → storable k.value) → storable k.value := fun hprivate =>
    (em (Public k.value)).elim (hpublic _) hprivate
  unfold importOf at hi
  split at hi <;> cases hi
  · refine hresult (evolves_format st _ _) (storesOnly_of ?_ _)
    intro l hl
    obtain ⟨content,-,rfl⟩ := Option.map_eq_some_iff.mp hl
    exact storesOnly_lines hpublic _
  · refine hresult (evolves_importProgram st k) (storesOnly_of ?_ _)
    intro l hl
    obtain ⟨out,-,rfl⟩ := Option.map_eq_some_iff.mp hl
    exact storesOnly_lines hpublic _
  · exact hresult (evolves_importBuiltin st k) (storesOnly_importBuiltin hpublic st k)
  · next ht =>
    refine hresult .refl (storesOnly_of ?_ _)
    intro l hl i hi _
    obtain ⟨v,hv,rfl⟩ := Option.map_eq_some_iff.mp hl
    rw [List.mem_singleton.mp hi]
    exact hvalue fun hprivate => hk ⟨hprivate,Or.inl ⟨ht,by rw [hv]; rfl⟩⟩
  · next ht =>
    refine hresult .refl (storesOnly_of ?_ _)
    intro l hl i hi _
    rw [cmdlineImports_key hl i hi]
    exact hvalue fun hprivate => hk ⟨hprivate,Or.inr ⟨ht,by rw [hl]; rfl⟩⟩
  · refine hresult (evolves_format st _ _) (storesOnly_of ?_ _)
    intro l hl
    obtain ⟨p,-,rfl⟩ := Option.map_eq_some_iff.mp hl
    intro i hi
    obtain ⟨e,-,rfl⟩ := List.mem_map.mp hi
    exact storable_imported hpublic _ _

theorem evolves_matchToken {st : State σ} {k : KeyToken} (hk : ImportsPrivate h st k → storable k.value) :
    Evolves storable st.event.dev (matchToken h st k).2.event.dev := by
  unfold matchToken
  dsimp only
  split <;> try dsimp only
  all_goals first
    | exact .refl
    | exact evolves_touch st.event _
    | exact evolves_matchProgram st k
    | skip
  split
  · next i hi => exact evolves_importOf hpublic hi hk
  · exact .refl

/-- One round of the interpreter changes the device step by step, and stores no private property, but for those two
imports. -/
theorem step_evolves {ts : List Token} {canSet : Bool} {c c' : Config σ} (hstep : step h ts canSet c = some c')
    (hk : ∀ k, ts[c.cur]? = some (.key k) → ImportsPrivate h (c.state.elapse h) k → storable k.value) :
    Evolves storable c.state.event.dev c'.state.event.dev := by
  unfold step at hstep
  dsimp only at hstep
  split at hstep
  · split_ifs at hstep <;> cases hstep <;> exact .refl
  · next k hkey =>
    cases hstep
    unfold stepKey
    split_ifs
    · dsimp only
      split_ifs
      · exact evolves_touch _ _
      · exact evolves_touch _ _
    · exact .refl
    · exact evolves_assignToken hpublic (c.state.elapse h) k
    · dsimp only
      have hmatch := evolves_matchToken hpublic (hk k hkey)
      split_ifs
      · exact hmatch
      · exact hmatch
  · cases hstep
  · cases hstep

end Stores

end Tokens

end Rules
end Udev
