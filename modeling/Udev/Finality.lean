import Udev.RuleRun

/-! The operator `:=`. OWNER, GROUP, MODE, NAME, SYMLINK and the watch remember that they
are final and later tokens leave them alone; TAG, RUN, SECLABEL and ENV do not. First what
a token can do to the settings of an event, then what a run leaves unchanged. -/
namespace Udev
namespace Rules

open RuleLine Text Runs Device

/-- The values that assignments set, with their final marks; the lists of the device are
its links and tags. -/
structure Settings where
  uid : ℕ
  gid : ℕ
  mode : ℕ
  name : Option CString
  seclabels : UdevList
  runs : UdevList
  watch : Bool
  ownerFinal : Bool
  groupFinal : Bool
  modeFinal : Bool
  nameFinal : Bool
  devlinkFinal : Bool
  watchFinal : Bool
  lists : UdevList × UdevList × UInt64

def Event.settings (ev : Event) : Settings where
  uid := ev.uid
  gid := ev.gid
  mode := ev.mode
  name := ev.name
  seclabels := ev.seclabelList
  runs := ev.runList
  watch := ev.inotifyWatch
  ownerFinal := ev.ownerFinal
  groupFinal := ev.groupFinal
  modeFinal := ev.modeFinal
  nameFinal := ev.nameFinal
  devlinkFinal := ev.devlinkFinal
  watchFinal := ev.inotifyWatchFinal
  lists := ev.dev.lists

theorem Event.settings_dev {ev : Event} {d : Device} (hd : d.lists = ev.dev.lists) :
    { ev with dev := d }.settings = ev.settings := by
  simp only [Event.settings,hd]

/-- Nothing is assigned and no property but the derived ones is changed. -/
structure Quiet (ev ev' : Event) : Prop where
  settings : ev'.settings = ev.settings
  lookup : ∀ n, Plain n → ev'.dev.lookup n = ev.dev.lookup n

theorem Quiet.refl (ev : Event) : Quiet ev ev := ⟨rfl,fun _ _ => rfl⟩

theorem Quiet.trans {e₁ e₂ e₃ : Event} (h : Quiet e₁ e₂) (h' : Quiet e₂ e₃) : Quiet e₁ e₃ :=
  ⟨h'.settings.trans h.settings,fun n hn => (h'.lookup n hn).trans (h.lookup n hn)⟩

theorem quiet_touch (ev : Event) (read : Bool) : Quiet ev (ev.touch read) := by
  unfold Event.touch
  split_ifs
  · exact ⟨Event.settings_dev (lists_sync _),fun n hn => lookup_sync hn _⟩
  · exact .refl ev

section Quiet

variable {σ : Type} {h : Host σ}

theorem quiet_format (st : State σ) (src : CString) (size : ℕ) :
    Quiet st.event (st.format h src size).2.event :=
  quiet_touch _ _

theorem quiet_spawn (st : State σ) (program : CString) : Quiet st.event (spawn h st program).2.event :=
  ⟨Event.settings_dev (lists_propertiesEnvp _),fun _ hn => lookup_propertiesEnvp hn _⟩

theorem quiet_importProgram (st : State σ) (k : KeyToken) :
    Quiet st.event (importProgram h st k).state.event :=
  (quiet_format st _ _).trans (quiet_spawn _ _)

theorem quiet_runBuiltin (st : State σ) (k : KeyToken) : Quiet st.event (runBuiltin h st k).state.event := by
  have htouch := (quiet_format (h := h) st k.value utilPathSize).trans (quiet_touch _ (h.builtinRun
    (st.format h k.value utilPathSize).2.host (st.format h k.value utilPathSize).2.event.dev
    (st.format h k.value utilPathSize).2.event.parents k.builtinCmd
    (st.format h k.value utilPathSize).1).touched)
  unfold runBuiltin
  dsimp only
  split_ifs
  · exact htouch
  · exact htouch.trans ⟨rfl,fun _ _ => rfl⟩

theorem quiet_importBuiltin (st : State σ) (k : KeyToken) :
    Quiet st.event (importBuiltin h st k).state.event := by
  unfold importBuiltin
  split_ifs
  · exact .refl _
  · refine Quiet.trans ?_ (quiet_runBuiltin _ k)
    exact ⟨rfl,fun _ _ => rfl⟩
  · exact quiet_runBuiltin st k

theorem quiet_importOf {st : State σ} {k : KeyToken} {i : Import σ} (hi : importOf h st k = some i) :
    Quiet st.event i.state.event := by
  unfold importOf at hi
  split at hi <;> cases hi
  · exact quiet_format _ _ _
  · exact quiet_importProgram st k
  · exact quiet_importBuiltin st k
  · exact ⟨rfl,fun _ _ => rfl⟩
  · exact .refl _
  · exact quiet_format _ _ _

theorem lists_importAll (l : List Imported) (d : Device) : (importAll l d).lists = d.lists := by
  induction l generalizing d with
  | nil => rfl
  | cons i l ih =>
    have hone : (importOne d i).lists = d.lists := by
      unfold importOne
      split
      · simp
      · dsimp only
        split_ifs <;> simp
    exact (ih _).trans hone

theorem lookup_importAll {n : CString} (hn : Plain n) (l : List Imported) (d : Device)
    (hl : ∀ i ∈ l, i.key ≠ n) : (importAll l d).lookup n = d.lookup n := by
  induction l generalizing d with
  | nil => rfl
  | cons i l ih =>
    have hne : n ≠ i.key := (hl i (by simp)).symm
    have hone : (importOne d i).lookup n = d.lookup n := by
      unfold importOne
      split
      · exact lookup_deleteProperty_ne hn hne
      · dsimp only
        split_ifs
        · rw [lookup_markStored_ne hne,lookup_setProperty_ne _ hne]
        · exact lookup_setProperty_ne _ hne
    exact (ih _ fun j hj => hl j (by simp [hj])).trans hone

theorem quiet_matchProgram (st : State σ) (k : KeyToken) : Quiet st.event (matchProgram h st k).2.event := by
  let st₀ : State σ := { st with event := { st.event with programResult := none } }
  have hclear : Quiet st.event st₀.event := ⟨rfl,fun _ _ => rfl⟩
  have hrun := (hclear.trans (quiet_format (h := h) st₀ k.value utilPathSize)).trans
    (quiet_spawn (h := h) (st₀.format h k.value utilPathSize).2 (st₀.format h k.value utilPathSize).1)
  unfold matchProgram
  dsimp only
  split
  · exact hrun
  · exact hrun.trans ⟨rfl,fun _ _ => rfl⟩

/-- A match that is no import assigns nothing; an import changes the properties it brings. -/
theorem matchToken_quiet (st : State σ) (k : KeyToken) :
    (importOf h st k = none ∧ Quiet st.event (matchToken h st k).2.event) ∨
    ∃ i, importOf h st k = some i ∧ (matchToken h st k).2 = i.result := by
  unfold matchToken
  dsimp only
  split <;> try dsimp only
  all_goals first
    | exact Or.inl ⟨by simp [importOf, *],.refl _⟩
    | exact Or.inl ⟨by simp [importOf, *],quiet_touch st.event _⟩
    | exact Or.inl ⟨by simp [importOf, *],quiet_matchProgram _ _⟩
    | skip
  split
  · next i hi => exact Or.inr ⟨i,hi,rfl⟩
  · next hi => exact Or.inl ⟨hi,.refl _⟩

theorem quiet_matchParents (s : σ) (ev : Event) (keys : List KeyToken) :
    Quiet ev (matchParents h s ev keys).2 :=
  (quiet_touch ev _).trans ⟨rfl,fun _ _ => rfl⟩

end Quiet

inductive Change (k : KeyToken) (S : Settings) : Settings → Prop
  | same : Change k S S
  | owner (uid : ℕ) (hf : S.ownerFinal = false) :
      Change k S { S with ownerFinal := isFinal k.op, uid := uid }
  | group (gid : ℕ) (hf : S.groupFinal = false) :
      Change k S { S with groupFinal := isFinal k.op, gid := gid }
  | mode (mode : ℕ) (ht : k.type = .aMode ∨ k.type = .aModeId) (hf : S.modeFinal = false) :
      Change k S { S with modeFinal := isFinal k.op, mode := mode }
  | watch (watch : Bool) (hf : S.watchFinal = false) :
      Change k S { S with watchFinal := isFinal k.op, watch := watch }
  | name (name : Option CString) (hf : S.nameFinal = false) :
      Change k S { S with nameFinal := isFinal k.op, name := name }
  | devlink (links : UdevList) (hf : S.devlinkFinal = false) (hm : major S.lists.2.2 ≠ 0) :
      Change k S { S with devlinkFinal := isFinal k.op, lists := (links,S.lists.2) }
  | tag (tags : UdevList) (ht : k.type = .aTag) :
      Change k S { S with lists := (S.lists.1,tags,S.lists.2.2) }
  | run (runs : UdevList) (ht : k.type = .aRunBuiltin ∨ k.type = .aRunProgram) :
      Change k S { S with runs := runs }
  | seclabel (seclabels : UdevList) (ht : k.type = .aSeclabel) : Change k S { S with seclabels := seclabels }

theorem Change.of_eq {k : KeyToken} {S S' T : Settings} (h : Change k S T) (he : T = S') : Change k S S' := he ▸ h

section Assign

variable {σ : Type} {h : Host σ} {st : State σ} {k : KeyToken}

theorem settings_format (st : State σ) (src : CString) (size : ℕ) :
    (st.format h src size).2.event.settings = st.event.settings :=
  (quiet_format st src size).settings

theorem change_assignOwner {ev : Event} (hq : ev.settings = st.event.settings)
    (hf : st.event.ownerFinal = false) (uid : ℕ) :
    Change k st.event.settings (assignOwner ev k.op uid).settings := by
  refine (Change.owner uid hf).of_eq ?_
  have hown : ev.ownerFinal = false := (congrArg Settings.ownerFinal hq).trans hf
  rw [← hq]
  simp [assignOwner,Event.settings,hown]

theorem change_assignGroup {ev : Event} (hq : ev.settings = st.event.settings)
    (hf : st.event.groupFinal = false) (gid : ℕ) :
    Change k st.event.settings (assignGroup ev k.op gid).settings := by
  refine (Change.group gid hf).of_eq ?_
  have hgroup : ev.groupFinal = false := (congrArg Settings.groupFinal hq).trans hf
  rw [← hq]
  simp [assignGroup,Event.settings,hgroup]

theorem change_assignMode {ev : Event} (hq : ev.settings = st.event.settings)
    (hf : st.event.modeFinal = false) (ht : k.type = .aMode ∨ k.type = .aModeId) (mode : ℕ) :
    Change k st.event.settings (assignMode ev k.op mode).settings := by
  refine (Change.mode mode ht hf).of_eq ?_
  have hmode : ev.modeFinal = false := (congrArg Settings.modeFinal hq).trans hf
  rw [← hq]
  simp [assignMode,Event.settings,hmode]

theorem change_assignModeText (ht : k.type = .aMode) :
    Change k st.event.settings (assignModeText h st k).event.settings := by
  unfold assignModeText
  dsimp only
  split_ifs with hf hbad
  · exact .same
  · exact Change.same.of_eq (settings_format st _ _).symm
  · exact change_assignMode (settings_format st _ _) (by simpa using hf) (Or.inl ht) _

theorem settings_assignEnv : (assignEnv h st k).event.settings = st.event.settings := by
  unfold assignEnv
  by_cases hv : k.value = []
  · rw [if_pos hv]
    split_ifs
    · rfl
    · exact Event.settings_dev (lists_deleteProperty _ _)
  · rw [if_neg hv]
    refine (Event.settings_dev (lists_importProperty _ _ _)).trans ?_
    exact (settings_format _ _ _).trans (quiet_touch _ _).settings

theorem change_assignTag (ht : k.type = .aTag) :
    Change k st.event.settings (assignTag h st k).event.settings := by
  have hadd : ∀ (d : Device) (tag : CString),
      (d.addTag tag).lists = (d.lists.1,(d.addTag tag).tagsList,d.lists.2.2) := by
    intro d tag
    unfold addTag
    split_ifs <;> rfl
  have hclean : ∀ d : Device, (if isAssignOp k.op then d.cleanupTagsList else d).lists.1 = d.lists.1 ∧
      (if isAssignOp k.op then d.cleanupTagsList else d).lists.2.2 = d.lists.2.2 := by
    intro d
    split_ifs <;> exact ⟨rfl,rfl⟩
  refine (Change.tag (assignTag h st k).event.dev.tagsList ht).of_eq ?_
  have hq := settings_format (h := h) st k.value utilPathSize
  have hc := hclean (st.format h k.value utilPathSize).2.event.dev
  rw [← hq]
  simp only [assignTag,Event.settings]
  rw [hadd,hc.1,hc.2]

theorem settings_markName (st : State σ) (op : Op) :
    (st.markName op).event.settings = { st.event.settings with nameFinal := isFinal op } := rfl

theorem settings_setName (st : State σ) (name : CString) :
    (st.setName name).event.settings = { st.event.settings with name := some name } := rfl

theorem change_assignName : Change k st.event.settings (assignName h st k).event.settings := by
  unfold assignName
  by_cases hf : st.event.nameFinal = true
  · rw [if_pos hf]
    exact .same
  · rw [if_neg hf]
    have hf : st.event.settings.nameFinal = false := eq_false_of_ne_true hf
    dsimp only
    split
    · rw [settings_format,settings_markName]
      exact .name st.event.name hf
    · rw [settings_setName,settings_format,settings_markName]
      exact .name _ hf

theorem settings_startDevlinks (st : State σ) (op : Op) :
    (st.startDevlinks op).event.settings =
      { st.event.settings with
        devlinkFinal := isFinal op
        lists := (if isAssignOp op then [] else st.event.dev.devlinksList,st.event.dev.lists.2) } := by
  unfold State.startDevlinks
  dsimp only
  split_ifs <;> rfl

theorem settings_addDevlinks (st : State σ) (names : List CString) :
    (st.addDevlinks names).event.settings =
      { st.event.settings with lists := ((st.addDevlinks names).event.dev.devlinksList,st.event.dev.lists.2) } := by
  have hlists : ∀ (names : List CString) (d : Device),
      (names.foldl (fun d n => d.addDevlink (strscpyl utilPathSize [str "/dev/",n])) d).lists.2 = d.lists.2 := by
    intro names
    induction names with
    | nil => exact fun _ => rfl
    | cons n names ih => exact fun d => ih _
  rw [← hlists names st.event.dev]
  rfl

theorem change_assignDevlink : Change k st.event.settings (assignDevlink h st k).event.settings := by
  unfold assignDevlink
  by_cases hf : st.event.devlinkFinal = true
  · rw [if_pos hf]
    exact .same
  · rw [if_neg hf]
    by_cases hm : major st.event.dev.devnum = 0
    · rw [if_pos hm]
      exact .same
    · rw [if_neg hm]
      dsimp only
      have hf : st.event.settings.devlinkFinal = false := eq_false_of_ne_true hf
      have hq := (settings_format (h := h) (st.startDevlinks k.op) k.value utilPathSize).trans
        (settings_startDevlinks st k.op)
      have hdev : ((st.startDevlinks k.op).format h k.value utilPathSize).2.event.dev.lists.2 =
          st.event.dev.lists.2 := congrArg (fun S : Settings => S.lists.2) hq
      rw [settings_addDevlinks,hq,hdev]
      exact .devlink _ hf hm

theorem assignToken_change (st : State σ) (k : KeyToken) :
    Change k st.event.settings (assignToken h st k).event.settings := by
  unfold assignToken
  dsimp only
  split
  · exact .same
  · exact .same
  · exact .same
  · split_ifs with hf
    · exact .same
    · exact .watch _ (eq_false_of_ne_true hf)
  · exact .same
  · split_ifs with hf
    · exact .same
    · exact change_assignOwner (settings_format st _ _) (eq_false_of_ne_true hf) _
  · split_ifs with hf
    · exact .same
    · exact change_assignGroup (settings_format st _ _) (eq_false_of_ne_true hf) _
  · next ht => exact change_assignModeText ht
  · split_ifs with hf
    · exact .same
    · exact change_assignOwner rfl (eq_false_of_ne_true hf) _
  · split_ifs with hf
    · exact .same
    · exact change_assignGroup rfl (eq_false_of_ne_true hf) _
  · next ht =>
    split_ifs with hf
    · exact .same
    · exact change_assignMode rfl (eq_false_of_ne_true hf) (Or.inr ht) _
  · next ht => exact .seclabel _ ht
  · exact Change.same.of_eq settings_assignEnv.symm
  · next ht => exact change_assignTag ht
  · exact change_assignName
  · exact change_assignDevlink
  · exact Change.same.of_eq (settings_format st _ _).symm
  · next ht => exact .run _ (Or.inl ht)
  · next ht => exact .run _ (Or.inr ht)
  · exact .same

theorem assignToken_lookup {n : CString} (hn : Plain n) (st : State σ) (k : KeyToken)
    (hk : ¬(k.type = .aEnv ∧ k.attr = n)) :
    (assignToken h st k).event.dev.lookup n = st.event.dev.lookup n := by
  have hformat : ∀ (st : State σ) (src : CString) (size : ℕ),
      (st.format h src size).2.event.dev.lookup n = st.event.dev.lookup n := fun st src size =>
    (quiet_format st src size).lookup n hn
  unfold assignToken
  dsimp only
  split
  · rfl
  · rfl
  · rfl
  · split_ifs <;> rfl
  · rfl
  · split_ifs
    · rfl
    · exact hformat st _ _
  · split_ifs
    · rfl
    · exact hformat st _ _
  · unfold assignModeText
    dsimp only
    split_ifs
    · rfl
    · exact hformat st _ _
    · exact hformat st _ _
  · split_ifs <;> rfl
  · split_ifs <;> rfl
  · split_ifs <;> rfl
  · rfl
  · next ht =>
    have hne : n ≠ k.attr := fun he => hk ⟨ht,he.symm⟩
    unfold assignEnv
    by_cases hv : k.value = []
    · rw [if_pos hv]
      split_ifs
      · rfl
      · exact lookup_deleteProperty_ne hn hne
    · rw [if_neg hv]
      refine (lookup_importProperty_ne _ hne).trans ((hformat _ _ _).trans ?_)
      exact (quiet_touch _ _).lookup n hn
  · refine Eq.trans ?_ (hformat st k.value utilPathSize)
    unfold assignTag addTag
    dsimp only
    split_ifs <;> rfl
  · unfold assignName
    dsimp only
    split_ifs
    · rfl
    · exact hformat (st.markName k.op) _ _
    · exact hformat (st.markName k.op) _ _
  · have hadd : ∀ (names : List CString) (d : Device),
        (names.foldl (fun d n => d.addDevlink (strscpyl utilPathSize [str "/dev/",n])) d).lookup n =
          d.lookup n := by
      intro names
      induction names with
      | nil => exact fun _ => rfl
      | cons m names ih => exact fun d => ih _
    unfold assignDevlink
    dsimp only
    split_ifs
    · rfl
    · rfl
    · refine (hadd _ _).trans ((hformat (st.startDevlinks k.op) _ _).trans ?_)
      unfold State.startDevlinks
      dsimp only
      split_ifs <;> rfl
  · exact hformat st _ _
  · rfl
  · rfl
  · rfl

end Assign

section Step

variable {σ : Type} {h : Host σ} {ts : List Token} {canSet : Bool} {c c' : Config σ}

/-- What one round of the interpreter does to the event: nothing to its settings and
plain properties, an assignment, or an import. -/
theorem step_effect (hs : step h ts canSet c = some c') :
    Quiet c.state.event c'.state.event ∨
    (∃ k, ts[c.cur]? = some (.key k) ∧ c'.state = assignToken h (c.state.elapse h) k) ∨
    ∃ k i, ts[c.cur]? = some (.key k) ∧ importOf h (c.state.elapse h) k = some i ∧ c'.state = i.result := by
  unfold step at hs
  dsimp only at hs
  split at hs
  · split_ifs at hs <;> cases hs <;> exact Or.inl ⟨rfl,fun _ _ => rfl⟩
  · next k hk =>
    have hk : ts[c.cur]? = some (.key k) := hk
    cases hs
    unfold stepKey
    dsimp only
    by_cases hp : k.type.isParent = true
    · rw [if_pos hp]
      refine Or.inl ?_
      split_ifs <;> exact quiet_matchParents (h := h) _ _ _
    · rw [if_neg hp]
      by_cases ha : k.type.isAssign = true
      · rw [if_pos ha]
        split_ifs
        · exact Or.inl ⟨rfl,fun _ _ => rfl⟩
        · exact Or.inr (Or.inl ⟨k,hk,rfl⟩)
      · rw [if_neg ha]
        rcases matchToken_quiet (h := h) (c.state.elapse h) k with ⟨_,hq⟩ | ⟨i,hi,hr⟩
        · refine Or.inl ?_
          split_ifs <;> exact hq
        · refine Or.inr (Or.inr ⟨k,i,hk,hi,?_⟩)
          split_ifs <;> exact hr
  · cases hs
  · cases hs

end Step

inductive FinalKey
  | owner | group | mode | name | symlink | tag | run | env (name : CString) | seclabel (module : CString)
  | watch
  deriving DecidableEq, Repr

namespace FinalKey

def assigns : FinalKey → KeyToken → Bool
  | owner, k => k.type = .aOwner || k.type = .aOwnerId
  | group, k => k.type = .aGroup || k.type = .aGroupId
  | mode, k => k.type = .aMode || k.type = .aModeId
  | name, k => k.type = .aName
  | symlink, k => k.type = .aDevlink
  | tag, k => k.type = .aTag
  | run, k => k.type = .aRunBuiltin || k.type = .aRunProgram
  | env n, k => k.type = .aEnv && k.attr = n
  | seclabel m, k => k.type = .aSeclabel && k.attr = m
  | watch, k => k.type = .aInotifyWatch

/-- The key has the same value in both events. -/
def SameValue : FinalKey → Event → Event → Prop
  | owner, ev, ev' => ev'.uid = ev.uid
  | group, ev, ev' => ev'.gid = ev.gid
  | mode, ev, ev' => ev'.mode = ev.mode
  | name, ev, ev' => ev'.name = ev.name
  | symlink, ev, ev' => ev'.dev.devlinksList = ev.dev.devlinksList
  | tag, ev, ev' => ev'.dev.tagsList = ev.dev.tagsList
  | run, ev, ev' => ev'.runList = ev.runList
  | env n, ev, ev' => ev'.dev.propertyValue n = ev.dev.propertyValue n
  | seclabel _, ev, ev' => ev'.seclabelList = ev.seclabelList
  | watch, ev, ev' => ev'.inotifyWatch = ev.inotifyWatch

theorem assigns_type {key : FinalKey} {k : KeyToken} (hk : key.assigns k = true) :
    k.type.isAssign = true ∧ k.type ≠ .aGoto := by
  cases key with
  | owner | group | mode | run =>
    rcases Bool.or_eq_true_iff.mp hk with ht | ht <;> rw [of_decide_eq_true ht] <;> decide
  | env n | seclabel m => rw [of_decide_eq_true (Bool.and_eq_true_iff.mp hk).1]; decide
  | name | symlink | tag | watch => rw [of_decide_eq_true hk]; decide

theorem SameValue.refl (key : FinalKey) (ev : Event) : key.SameValue ev ev := by
  cases key <;> rfl

theorem SameValue.trans {key : FinalKey} {e₁ e₂ e₃ : Event} (h₁ : key.SameValue e₁ e₂)
    (h₂ : key.SameValue e₂ e₃) : key.SameValue e₁ e₃ := by
  cases key <;> exact Eq.trans h₂ h₁

/-- The token assigns the key, or imports the property, and no final mark stops it. -/
def Unguarded {σ : Type} (h : Host σ) : FinalKey → State σ → KeyToken → Prop
  | mode, st, k => st.event.modeFinal = false ∧ (k.type = .aMode ∨ k.type = .aModeId)
  | tag, _, k => k.type = .aTag
  | run, _, k => k.type = .aRunBuiltin ∨ k.type = .aRunProgram
  | env n, st, k => (k.type = .aEnv ∧ k.attr = n) ∨ ∃ i, importOf h st k = some i ∧ ∃ p ∈ i.list, p.key = n
  | seclabel _, _, k => k.type = .aSeclabel
  | _, _, _ => False

/-- The final mark of the key is set; a device without a number gets no links. -/
def Closed : FinalKey → Settings → Prop
  | owner, S => S.ownerFinal = true
  | group, S => S.groupFinal = true
  | name, S => S.nameFinal = true
  | symlink, S => S.devlinkFinal = true ∨ major S.lists.2.2 = 0
  | watch, S => S.watchFinal = true
  | _, _ => True

/-- The key has the same value in both settings; a property is not part of them. -/
def SameSetting : FinalKey → Settings → Settings → Prop
  | owner, S, S' => S'.uid = S.uid
  | group, S, S' => S'.gid = S.gid
  | mode, S, S' => S'.mode = S.mode
  | name, S, S' => S'.name = S.name
  | symlink, S, S' => S'.lists.1 = S.lists.1
  | tag, S, S' => S'.lists.2.1 = S.lists.2.1
  | run, S, S' => S'.runs = S.runs
  | env _, _, _ => True
  | seclabel _, S, S' => S'.seclabels = S.seclabels
  | watch, S, S' => S'.watch = S.watch

def Writes : FinalKey → Settings → KeyToken → Prop
  | mode, S, k => S.modeFinal = false ∧ (k.type = .aMode ∨ k.type = .aModeId)
  | tag, _, k => k.type = .aTag
  | run, _, k => k.type = .aRunBuiltin ∨ k.type = .aRunProgram
  | seclabel _, _, k => k.type = .aSeclabel
  | _, _, _ => False

/-- The property is not derived from a list. -/
def Plain : FinalKey → Prop
  | env n => Device.Plain n
  | _ => True

end FinalKey

section Finality

variable {σ : Type} {h : Host σ} {key : FinalKey}

theorem sameValue_of_setting {ev ev' : Event} (hs : key.SameSetting ev.settings ev'.settings) (hp : key.Plain)
    (hl : ∀ n, key = .env n → ev'.dev.lookup n = ev.dev.lookup n) : key.SameValue ev ev' := by
  cases key with
  | env n =>
    show ev'.dev.propertyValue n = ev.dev.propertyValue n
    rw [propertyValue_plain hp,propertyValue_plain hp]
    exact hl n rfl
  | _ => exact hs

theorem sameSetting_refl (key : FinalKey) (S : Settings) : key.SameSetting S S := by
  cases key <;> first | rfl | trivial

theorem FinalKey.Writes.unguarded {st : State σ} {k : KeyToken} (hw : key.Writes st.event.settings k) :
    key.Unguarded h st k := by
  cases key <;> first | exact hw | exact hw.elim

/-- A change leaves a closed key alone unless it is an assignment that nothing stops. -/
theorem Change.closed {k : KeyToken} {S S' : Settings} (hch : Change k S S') (hc : key.Closed S)
    (hw : ¬key.Writes S k) : key.Closed S' ∧ key.SameSetting S S' := by
  cases key <;> cases hch <;>
    simp_all [FinalKey.Closed,FinalKey.SameSetting,FinalKey.Writes]

theorem assignToken_closes {st : State σ} {k : KeyToken} (hk : key.assigns k = true)
    (hop : k.op = .opAssignFinal) : key.Closed (assignToken h st k).event.settings := by
  have hfinal : isFinal k.op = true := by rw [hop]; rfl
  cases key with
  | owner =>
    rcases (by simpa [FinalKey.assigns] using hk : k.type = .aOwner ∨ k.type = .aOwnerId) with ht | ht
    all_goals
      simp only [assignToken,ht,FinalKey.Closed]
      split_ifs with hf
      · exact hf
      · simp [assignOwner,Event.settings,hfinal]
  | group =>
    rcases (by simpa [FinalKey.assigns] using hk : k.type = .aGroup ∨ k.type = .aGroupId) with ht | ht
    all_goals
      simp only [assignToken,ht,FinalKey.Closed]
      split_ifs with hf
      · exact hf
      · simp [assignGroup,Event.settings,hfinal]
  | name =>
    have ht : k.type = .aName := by simpa [FinalKey.assigns] using hk
    have hmark : ∀ st : State σ, ((st.markName k.op).format h k.value utilPathSize).2.event.settings.nameFinal =
        true := fun st => by rw [settings_format,settings_markName]; exact hfinal
    simp only [assignToken,ht,FinalKey.Closed,assignName]
    split_ifs with hf
    · exact hf
    · exact hmark st
    · exact hmark st
  | symlink =>
    have ht : k.type = .aDevlink := by simpa [FinalKey.assigns] using hk
    simp only [assignToken,ht,FinalKey.Closed,assignDevlink]
    split_ifs with hf hm
    · exact Or.inl hf
    · exact Or.inr hm
    · refine Or.inl ?_
      rw [settings_addDevlinks,settings_format,settings_startDevlinks]
      exact hfinal
  | watch =>
    have ht : k.type = .aInotifyWatch := by simpa [FinalKey.assigns] using hk
    simp only [assignToken,ht,FinalKey.Closed]
    split_ifs with hf
    · exact hf
    · exact hfinal
  | _ => trivial

variable {ts : List Token} {canSet : Bool} {c c' : Config σ}

theorem step_closed (hp : key.Plain) (hc : key.Closed c.state.event.settings)
    (hs : step h ts canSet c = some c')
    (hg : ∀ k, ts[c.cur]? = some (.key k) → ¬key.Unguarded h (c.state.elapse h) k) :
    key.Closed c'.state.event.settings ∧ key.SameValue c.state.event c'.state.event := by
  have helapse : (c.state.elapse h).event = c.state.event := rfl
  rcases step_effect hs with hq | ⟨k,hk,he⟩ | ⟨k,i,hk,hi,he⟩
  · refine ⟨hq.settings ▸ hc,sameValue_of_setting (hq.settings ▸ sameSetting_refl key _) hp fun n hn => ?_⟩
    subst hn
    exact hq.lookup n hp
  · obtain ⟨hclosed,hsame⟩ := (assignToken_change (h := h) (c.state.elapse h) k).closed hc
      fun hw => hg k hk hw.unguarded
    rw [he]
    refine ⟨hclosed,sameValue_of_setting hsame hp fun n hn => ?_⟩
    subst hn
    exact assignToken_lookup hp (c.state.elapse h) k fun henv => hg k hk (Or.inl henv)
  · have hq := quiet_importOf hi
    have hset : i.result.event.settings = c.state.event.settings :=
      (Event.settings_dev (lists_importAll _ _)).trans hq.settings
    rw [he]
    refine ⟨hset ▸ hc,sameValue_of_setting (hset ▸ sameSetting_refl key _) hp fun n hn => ?_⟩
    subst hn
    refine (lookup_importAll hp i.list _ fun p hpm hkey => ?_).trans (hq.lookup n hp)
    exact hg k hk (Or.inr ⟨i,hi,p,hpm,hkey⟩)

/-- A run leaves a closed key alone if none of its tokens is unguarded. -/
theorem path_closed (hp : key.Plain) {cs : List (Config σ)} (hpath : Path (step h ts canSet) c cs c')
    (hc : key.Closed c.state.event.settings)
    (hg : ∀ d ∈ cs, ∀ k, ts[d.cur]? = some (.key k) → ¬key.Unguarded h (d.state.elapse h) k) :
    key.SameValue c.state.event c'.state.event := by
  induction hpath with
  | nil => exact .refl key _
  | cons hs _ ih =>
    obtain ⟨hclosed,hsame⟩ := step_closed hp hc hs (hg _ (by simp))
    exact hsame.trans (ih hclosed fun d hd => hg d (by simp [hd]))

end Finality

theorem addRule_env {o : Options} {line : CString} {ts : List Token} (hadd : addRule o line = some ts)
    {k : KeyToken} (hk : .key k ∈ ts) (ht : k.type = .aEnv) : k.attr ∉ envBlacklist := by
  obtain ⟨tmp,htmp,rfl⟩ := Option.map_eq_some_iff.mp hadd
  have hnew := addPairs_new htmp (by simp)
  rcases List.mem_cons.mp hk with hk | hk
  · cases hk
  · obtain ⟨k',hk',he⟩ := List.mem_map.mp hk
    cases he
    exact (hnew k ((sortToken_new hnew).mem hk')).env ht

theorem linkGotos_env {i : ℕ} {ts : List Token} {k : KeyToken} (hk : .key k ∈ linkGotos i ts) :
    ∃ k₀, .key k₀ ∈ ts ∧ k₀.type = k.type ∧ k₀.attr = k.attr := by
  induction ts generalizing i with
  | nil => cases hk
  | cons t ts ih =>
    cases t with
    | key k₀ =>
      rcases List.mem_cons.mp hk with he | hk
      · refine ⟨k₀,by simp,?_⟩
        cases he
        split_ifs <;> exact ⟨rfl,rfl⟩
      · obtain ⟨k₁,hk₁,hsame⟩ := ih hk
        exact ⟨k₁,by simp [hk₁],hsame⟩
    | rule r =>
      rcases List.mem_cons.mp hk with he | hk
      · cases he
      · obtain ⟨k₁,hk₁,hsame⟩ := ih hk
        exact ⟨k₁,by simp [hk₁],hsame⟩
    | tkEnd =>
      rcases List.mem_cons.mp hk with he | hk
      · cases he
      · obtain ⟨k₁,hk₁,hsame⟩ := ih hk
        exact ⟨k₁,by simp [hk₁],hsame⟩

theorem rulesLoad_env {o : Options} {files : List (Option (List UInt8))} {k : KeyToken}
    (hk : .key k ∈ rulesLoad o files) (ht : k.type = .aEnv) : k.attr ∉ envBlacklist := by
  have hfile : ∀ content, ∀ k, .key k ∈ fileTokens o content → k.type = .aEnv → k.attr ∉ envBlacklist := by
    intro content k hk ht
    obtain ⟨line,_,hmem⟩ := List.mem_flatMap.mp hk
    cases hadd : addRule o line with
    | none => simp [hadd] at hmem
    | some ts => exact addRule_env hadd (by simpa [hadd] using hmem) ht
  have hfold : ∀ (files : List (Option (List UInt8))) (tokens : List Token),
      (∀ k, .key k ∈ tokens → k.type = .aEnv → k.attr ∉ envBlacklist) →
      ∀ k, .key k ∈ files.foldl (parseFile o) tokens → k.type = .aEnv → k.attr ∉ envBlacklist := by
    intro files
    induction files with
    | nil => exact fun _ htokens => htokens
    | cons f fs ih =>
      intro tokens htokens
      refine ih _ fun k hk ht => ?_
      cases f with
      | none => exact htokens k hk ht
      | some content =>
        have hall : ∀ k, .key k ∈ tokens ++ fileTokens o content → k.type = .aEnv → k.attr ∉ envBlacklist :=
          fun k hk => (List.mem_append.mp hk).elim (htokens k) (hfile content k)
        rcases List.mem_append.mp hk with hk | hk
        · exact hall k (List.mem_of_mem_take hk) ht
        · obtain ⟨k₀,hk₀,htype,hattr⟩ := linkGotos_env hk
          exact hattr ▸ hall k₀ (List.mem_of_mem_drop hk₀) (htype.trans ht)
  rcases List.mem_append.mp hk with hk | hk
  · exact hfold files [] (by simp) k hk ht
  · simp at hk

/-- After a final assignment the key keeps its value for as long as no unguarded token of
the key is reached. -/
theorem final_assignment_kept (o : Options) (files : List (Option (List UInt8))) {σ : Type} (h : Host σ)
    (canSet : Bool) (key : FinalKey) (k : KeyToken) (c c₁ c₂ : Config σ) (cs : List (Config σ))
    (hk : (rulesLoad o files)[c.cur]? = some (.key k)) (hassign : key.assigns k = true)
    (hop : k.op = .opAssignFinal) (hstep : step h (rulesLoad o files) canSet c = some c₁)
    (hpath : Path (step h (rulesLoad o files) canSet) c₁ cs c₂)
    (hguard : ∀ d ∈ cs, ∀ k', (rulesLoad o files)[d.cur]? = some (.key k') →
      ¬key.Unguarded h (d.state.elapse h) k') :
    key.SameValue c₁.state.event c₂.state.event := by
  have htype := FinalKey.assigns_type hassign
  have hplain : key.Plain := by
    cases key with
    | env n =>
      obtain ⟨ht,rfl⟩ : k.type = .aEnv ∧ k.attr = n := by simpa [FinalKey.assigns] using hassign
      have henv := rulesLoad_env (List.mem_of_getElem? hk) ht
      exact ⟨fun he => henv (by rw [he]; decide),fun he => henv (by rw [he]; decide)⟩
    | _ => trivial
  have hstate : c₁.state = assignToken h (c.state.elapse h) k := by
    rw [step_key h canSet hk] at hstep
    cases hstep
    simp [stepKey,TokenType.isParent_of_isAssign htype.1,htype.1,htype.2,Config.next]
  have hclosed : key.Closed c₁.state.event.settings := hstate ▸ assignToken_closes hassign hop
  exact path_closed hplain hpath hclosed hguard

def ownerRules : List (Option (List UInt8)) := [some (str "OWNER:=\"5\"\nOWNER=\"7\"\n")]

def diskEvent : Event := { dev := { devnum := 0x800 } }

/-- The configuration with the final owner. -/
def ownedAt (cur rule : ℕ) : Config Unit where
  cur := cur
  rule := rule
  state := { event := { diskEvent with uid := 5, ownerSet := true, ownerFinal := true }, host := () }

set_option maxRecDepth 8000 in
theorem final_assignment_kept_owner :
    Path (step emptyHost (rulesLoad plainOptions ownerRules) true) (ownedAt 2 0) [ownedAt 2 0,ownedAt 3 2]
      (ownedAt 4 2) ∧
    FinalKey.owner.SameValue (ownedAt 2 0).state.event (ownedAt 4 2).state.event := by
  have hload : rulesLoad plainOptions ownerRules =
      [.rule { canSetName := true, tokenCount := 2 },.key (newKey .aOwnerId .opAssignFinal none (.num 5)),
       .rule { canSetName := true, tokenCount := 2 },.key (newKey .aOwnerId .opAssign none (.num 7)),.tkEnd] := by
    decide
  have hpath : Path (step emptyHost (rulesLoad plainOptions ownerRules) true) (ownedAt 2 0)
      [ownedAt 2 0,ownedAt 3 2] (ownedAt 4 2) := by
    rw [hload]
    exact .cons rfl (.cons rfl (.nil _))
  refine ⟨hpath,final_assignment_kept plainOptions ownerRules emptyHost true .owner
    (newKey .aOwnerId .opAssignFinal none (.num 5)) { cur := 1, state := { event := diskEvent, host := () } }
    _ _ _ ?_ rfl rfl ?_ hpath fun _ _ _ _ hu => hu⟩
  · rw [hload]
    rfl
  · rw [hload]
    rfl

def tagRules : List (Option (List UInt8)) := [some (str "TAG:=\"a\"\nTAG+=\"b\"\n")]

set_option maxRecDepth 8000 in
/-- The tags are changed after the final assignment at the second token. -/
theorem final_tag_changed :
    (rulesLoad plainOptions tagRules)[1]? =
      some (.key (newKey .aTag .opAssignFinal (some (str "a")) .none)) ∧
    (applyVisits emptyHost (rulesLoad plainOptions tagRules) diskEvent ()).map
      (fun c => (c.cur,c.state.event.dev.tagsList.map (·.name))) =
    [(0,[]),(1,[]),(2,[str "a"]),(3,[str "a"]),(4,[str "a",str "b"])] := by
  decide

end Rules
end Udev
