import Udev.Evolution
import Udev.Finality

/-! The tags that the rules add. `TK_A_TAG` looks at the characters of the tag and logs an
invalid name, but then adds the tag all the same; the device itself refuses only a colon
or a space. -/
namespace Udev
namespace Rules

open CString RuleLine Text Device

/-- The characters that the loop of `TK_A_TAG` lets pass. -/
def tagChar (c : UInt8) : Bool :=
  (chr 'a' ≤ c && c ≤ chr 'z') || (chr 'A' ≤ c && c ≤ chr 'Z') || (chr '0' ≤ c && c ≤ chr '9') ||
    c = chr '-' || c = chr '_'

/-- A tag that is one component of a path and survives the formats of the database and
of the TAGS property. -/
def SafeTag (t : CString) : Prop := t ≠ [] ∧ ∀ c ∈ t, tagChar c = true

instance (t : CString) : Decidable (SafeTag t) := inferInstanceAs (Decidable (_ ∧ _))

variable {σ : Type} (h : Host σ)

def tagsAt (c : Config σ) : List CString := c.state.event.dev.tagsList.map (·.name)

def keptTags (c : Config σ) (k : KeyToken) : List CString := if isAssignOp k.op then [] else tagsAt c

def tagText (c : Config σ) (k : KeyToken) : CString := ((c.state.elapse h).format h k.value utilPathSize).1

/-- The text of a TAG token at a configuration is safe, refused, or already a tag. -/
def TagTextSafe (ts : List Token) (c : Config σ) : Prop :=
  ∀ k, ts[c.cur]? = some (.key k) → k.type = .aTag →
    SafeTag (tagText h c k) ∨ ¬ValidTag (tagText h c k) ∨ tagText h c k ∈ keptTags c k

/-- In each run of the rules, the tags that TAG tokens add are safe. -/
def AddedTagsSafe (ts : List Token) (ev : Event) (s : σ) : Prop :=
  ∀ c ∈ applyVisits h ts ev s, ∀ k, ts[c.cur]? = some (.key k) → k.type = .aTag →
    ∀ c', step h ts (canSetName ev) c = some c' → ∀ t ∈ tagsAt c', t ∈ keptTags c k ∨ SafeTag t

/-- The run comes to TAG tokens with such texts only. -/
def TagTextsSafe (ts : List Token) (ev : Event) (s : σ) : Prop :=
  ∀ c ∈ applyVisits h ts ev s, TagTextSafe h ts c

section Step

variable {h} {ts : List Token} {canSet : Bool} {c c' : Config σ} {k : KeyToken}

theorem tagsList_format (st : State σ) (src : CString) (size : ℕ) :
    (st.format h src size).2.event.dev.tagsList = st.event.dev.tagsList :=
  congrArg (·.lists.2.1) (settings_format st src size)

/-- A TAG token adds its text to the tags that it keeps, unless the device refuses it. -/
theorem mem_tagsAt (hk : ts[c.cur]? = some (.key k)) (ht : k.type = .aTag)
    (hs : step h ts canSet c = some c') (t : CString) :
    t ∈ tagsAt c' ↔ t = tagText h c k ∧ ValidTag (tagText h c k) ∨ t ∈ keptTags c k := by
  have hassign : k.type.isAssign = true := by rw [ht]; rfl
  have hparent := TokenType.isParent_of_isAssign hassign
  have hgoto : ¬(k.type = .aGoto ∧ k.ruleGoto ≠ 0) := fun hg => absurd (ht.symm.trans hg.1) (by decide)
  rw [step_key h canSet hk,stepKey,hparent,hassign,if_neg Bool.false_ne_true,if_pos rfl,if_neg hgoto] at hs
  obtain rfl := Option.some.inj hs
  have htoken : assignToken h (c.state.elapse h) k = assignTag h (c.state.elapse h) k := by
    simp only [assignToken,ht]
  show t ∈ (assignToken h (c.state.elapse h) k).event.dev.tagsList.map (·.name) ↔ _
  rw [htoken,assignTag]
  refine mem_addTag.trans (or_congr_right ?_)
  unfold keptTags tagsAt
  split_ifs
  · rfl
  · rw [tagsList_format]
    rfl

theorem tagsAt_step (hs : step h ts canSet c = some c')
    (hother : ∀ k, ts[c.cur]? = some (.key k) → k.type ≠ .aTag) : tagsAt c' = tagsAt c := by
  have hplain : FinalKey.tag.Plain := trivial
  have hsame : c'.state.event.dev.tagsList = c.state.event.dev.tagsList :=
    (step_closed hplain trivial hs hother).2
  unfold tagsAt
  rw [hsame]

end Step

theorem keptTags_subset {c : Config σ} {k : KeyToken} {t : CString} (ht : t ∈ keptTags c k) : t ∈ tagsAt c := by
  unfold keptTags at ht
  split_ifs at ht
  · exact absurd ht List.not_mem_nil
  · exact ht

/-- The tags are safe or were those of the device before. -/
def SafeTagsFrom (ev : Event) (c : Config σ) : Prop :=
  ∀ t ∈ tagsAt c, t ∈ ev.dev.tagsList.map (·.name) ∨ SafeTag t

theorem safeTagsFrom_step {ts : List Token} {canSet : Bool} {ev : Event} {c c' : Config σ} (hc : SafeTagsFrom ev c)
    (htext : TagTextSafe h ts c) (hs : step h ts canSet c = some c') : SafeTagsFrom ev c' := by
  intro t ht
  by_cases htag : ∃ k, ts[c.cur]? = some (.key k) ∧ k.type = .aTag
  · obtain ⟨k,hk,htype⟩ := htag
    rcases (mem_tagsAt hk htype hs t).mp ht with ⟨rfl,hvalid⟩ | hkept
    · rcases htext k hk htype with hsafe | hrefused | hkept
      · exact Or.inr hsafe
      · exact absurd hvalid hrefused
      · exact hc _ (keptTags_subset hkept)
    · exact hc t (keptTags_subset hkept)
  · rw [tagsAt_step hs fun k hk htype => htag ⟨k,hk,htype⟩] at ht
    exact hc t ht

theorem added_iff_text {ts : List Token} {canSet : Bool} {c : Config σ} :
    (∀ k, ts[c.cur]? = some (.key k) → k.type = .aTag →
      ∀ c', step h ts canSet c = some c' → ∀ t ∈ tagsAt c', t ∈ keptTags c k ∨ SafeTag t) ↔ TagTextSafe h ts c := by
  constructor
  · intro hadded k hk ht
    have hs := step_key h canSet hk
    have hnew := hadded k hk ht _ hs (tagText h c k)
    rw [mem_tagsAt hk ht hs] at hnew
    by_cases hvalid : ValidTag (tagText h c k)
    · rcases hnew (Or.inl ⟨rfl,hvalid⟩) with hkept | hsafe
      · exact Or.inr (Or.inr hkept)
      · exact Or.inl hsafe
    · exact Or.inr (Or.inl hvalid)
  · intro htext k hk ht c' hs t hmem
    rcases (mem_tagsAt hk ht hs t).mp hmem with ⟨rfl,hvalid⟩ | hkept
    · rcases htext k hk ht with hsafe | hrefused | hkept
      · exact Or.inr hsafe
      · exact absurd hvalid hrefused
      · exact Or.inl hkept
    · exact Or.inl hkept

/-- The added tags of a run are safe exactly when the texts of its TAG tokens are; all tags
in the states that it reaches are then safe, or were those of the device before. -/
theorem added_tags_safe_iff (ts : List Token) (ev : Event) (s : σ) :
    (AddedTagsSafe h ts ev s ↔ TagTextsSafe h ts ev s) ∧
    (TagTextsSafe h ts ev s → ∀ c ∈ applyVisits h ts ev s, SafeTagsFrom ev c) := by
  refine ⟨forall₂_congr fun c _ => added_iff_text h,fun htexts c hc => ?_⟩
  have hstep : ∀ c c' : Config σ, SafeTagsFrom ev c → TagTextSafe h ts c →
      step h ts (canSetName ev) c = some c' → SafeTagsFrom ev c' :=
    fun _ _ hc htext hs => safeTagsFrom_step h hc htext hs
  have hstart : SafeTagsFrom ev { state := { event := ev, host := s } } := fun t ht => Or.inl ht
  exact Runs.visits_invariant_of_mem hstep hstart htexts hc

/-- A rule with a tag that is no name of one file. -/
def pathTagRules : List (Option (List UInt8)) := [some (str "TAG+=\"../x\"\n")]

set_option maxRecDepth 8000 in
/-- The invalid name is logged and added. -/
theorem path_tag_added : ¬AddedTagsSafe emptyHost (rulesLoad plainOptions pathTagRules) diskEvent () := by
  have hload : rulesLoad plainOptions pathTagRules =
      [.rule { tokenCount := 2 },.key (newKey .aTag .opAdd (some (str "../x")) .none),.tkEnd] := by
    decide
  rw [hload]
  intro hadded
  have hvisit : (applyVisits emptyHost [.rule { tokenCount := 2 },.key (newKey .aTag .opAdd (some (str "../x")) .none),
      .tkEnd] diskEvent ())[1]? = some { cur := 1, rule := 0, state := { event := diskEvent, host := () } } := rfl
  have hnew := hadded _ (List.mem_of_getElem? hvisit) _ rfl rfl _ rfl (str "../x") (by decide)
  revert hnew
  decide

end Rules
end Udev
