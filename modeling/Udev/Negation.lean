import Udev.Matching

/-! The operator `!=` of TAG and SYMLINK. Both keys look for an element of a list; TAG
never fails with `!=`, and SYMLINK looks for a link that does not match. -/
namespace Udev
namespace Rules

open RuleLine

variable {σ : Type} (h : Host σ)

/-- A key as `add_rule` makes it for `TAG` or `SYMLINK` with a comparison. -/
def listKey (type : TokenType) (op : Op) (value : CString) : KeyToken := newKey type op (some value) .none

/-- The value of a SYMLINK key matches a link. -/
def linkMatches (value : CString) (e : ListEntry) : Bool :=
  matchValue h (listKey .mDevlink .opMatch value) (devName e.name)

/-- TAG and SYMLINK with `!=` match exactly when they do not match with `==`. -/
def NegationExact (st : State σ) (value : CString) : Prop :=
  ∀ type, type = .mTag ∨ type = .mDevlink →
    ((matchToken h st (listKey type .opNomatch value)).1 = true ↔
      (matchToken h st (listKey type .opMatch value)).1 = false)

theorem globType_ne_unset (value : CString) : globType value ≠ .unset := by
  unfold globType
  dsimp only
  split_ifs <;> simp

theorem matchKey_listKey (type : TokenType) (hm : type.isMatch = true) (op : Op) (value text : CString) :
    matchKey h (listKey type op value) (some text) =
      if matchValue h (listKey type .opMatch value) text then decide (op = .opMatch)
      else decide (op = .opNomatch) := by
  have hglob : (listKey type op value).glob = globType value := by simp [listKey,newKey,hm]
  have hsame : matchValue h (listKey type op value) text = matchValue h (listKey type .opMatch value) text := rfl
  simp only [matchKey,hglob,globType_ne_unset,Option.getD_some,hsame,ne_eq,not_false_eq_true,decide_true,
    Bool.true_and]
  split_ifs <;> rfl

theorem matchToken_tag (st : State σ) (op : Op) (value : CString) :
    (matchToken h st (listKey .mTag op value)).1 = true ↔
      (∃ e ∈ st.event.dev.tagsList, e.name = value) ∨ op = .opNomatch := by
  have htoken : (matchToken h st (listKey .mTag op value)).1 =
      (st.event.dev.tagsList.any (fun e => value = e.name) || op = .opNomatch) := rfl
  simp [htoken,eq_comm (a := value)]

theorem matchToken_devlink (st : State σ) (op : Op) (value : CString) :
    (matchToken h st (listKey .mDevlink op value)).1 = true ↔
      ∃ e ∈ st.event.dev.devlinksList,
        if linkMatches h value e then op = .opMatch else op = .opNomatch := by
  have hkey : ∀ e : ListEntry, matchKey h (listKey .mDevlink op value) (some (devName e.name)) = true ↔
      if linkMatches h value e then op = .opMatch else op = .opNomatch := by
    intro e
    rw [matchKey_listKey h .mDevlink rfl,linkMatches]
    split_ifs <;> simp
  have htoken : (matchToken h st (listKey .mDevlink op value)).1 =
      st.event.dev.devlinksList.any fun e => matchKey h (listKey .mDevlink op value) (some (devName e.name)) :=
    rfl
  simp only [htoken,List.any_eq_true,hkey]

/-- The operator `!=` is the negation of `==` exactly when the device does not have the
tag and has links that all match or all do not. -/
theorem negation_exact_iff (st : State σ) (value : CString) :
    NegationExact h st value ↔
      (∀ e ∈ st.event.dev.tagsList, e.name ≠ value) ∧ st.event.dev.devlinksList ≠ [] ∧
      ((∀ e ∈ st.event.dev.devlinksList, linkMatches h value e = true) ∨
        ∀ e ∈ st.event.dev.devlinksList, linkMatches h value e = false) := by
  have htag : ((matchToken h st (listKey .mTag .opNomatch value)).1 = true ↔
      (matchToken h st (listKey .mTag .opMatch value)).1 = false) ↔
      ∀ e ∈ st.event.dev.tagsList, e.name ≠ value := by
    rw [← Bool.not_eq_true,matchToken_tag,matchToken_tag]
    simp
  have hsame : (∃ e ∈ st.event.dev.devlinksList, linkMatches h value e = true) ↔
      (matchToken h st (listKey .mDevlink .opMatch value)).1 = true := by
    rw [matchToken_devlink]
    simp
  have hother : (∃ e ∈ st.event.dev.devlinksList, linkMatches h value e = false) ↔
      (matchToken h st (listKey .mDevlink .opNomatch value)).1 = true := by
    rw [matchToken_devlink]
    simp
  have hlink : ((matchToken h st (listKey .mDevlink .opNomatch value)).1 = true ↔
      (matchToken h st (listKey .mDevlink .opMatch value)).1 = false) ↔
      st.event.dev.devlinksList ≠ [] ∧
      ((∀ e ∈ st.event.dev.devlinksList, linkMatches h value e = true) ∨
        ∀ e ∈ st.event.dev.devlinksList, linkMatches h value e = false) := by
    rw [← Bool.not_eq_true,← hsame,← hother]
    generalize st.event.dev.devlinksList = links
    constructor
    · intro hiff
      by_cases hm : ∃ e ∈ links, linkMatches h value e = true
      · have ⟨e,he,_⟩ := hm
        refine ⟨List.ne_nil_of_mem he,Or.inl fun e' he' => ?_⟩
        by_contra hne
        exact hiff.mp ⟨e',he',by simpa using hne⟩ hm
      · obtain ⟨e,he,_⟩ := hiff.mpr hm
        refine ⟨List.ne_nil_of_mem he,Or.inr fun e' he' => ?_⟩
        by_contra hne
        exact hm ⟨e',he',by simpa using hne⟩
    · rintro ⟨hne,hall | hall⟩
      · obtain ⟨e,he⟩ := List.exists_mem_of_ne_nil links hne
        refine ⟨fun ⟨e',he',hf⟩ => ?_,fun hm => absurd ⟨e,he,hall e he⟩ hm⟩
        rw [hall e' he'] at hf
        cases hf
      · obtain ⟨e,he⟩ := List.exists_mem_of_ne_nil links hne
        refine ⟨fun _ ⟨e',he',ht⟩ => ?_,fun _ => ⟨e,he,hall e he⟩⟩
        rw [hall e' he'] at ht
        cases ht
  rw [← htag,← hlink]
  exact ⟨fun hex => ⟨hex .mTag (Or.inl rfl),hex .mDevlink (Or.inr rfl)⟩,fun ⟨h₁,h₂⟩ type htype =>
    htype.elim (fun ht => ht ▸ h₁) fun ht => ht ▸ h₂⟩

def taggedState : State Unit where
  event := { dev := { tagsList := [⟨str "seat",none,0⟩] } }
  host := ()

/-- With the tag both operators of TAG match; without links neither of SYMLINK does. -/
theorem tag_and_symlink_not_negated : ¬NegationExact emptyHost taggedState (str "seat") ∧
    (matchToken emptyHost taggedState (listKey .mTag .opNomatch (str "seat"))).1 = true ∧
    (matchToken emptyHost taggedState (listKey .mTag .opMatch (str "seat"))).1 = true ∧
    (matchToken emptyHost taggedState (listKey .mDevlink .opNomatch (str "disk"))).1 = false ∧
    (matchToken emptyHost taggedState (listKey .mDevlink .opMatch (str "disk"))).1 = false := by
  refine ⟨fun hex => ?_,by decide⟩
  have hfalse := (hex .mTag (Or.inl rfl)).mp (by decide)
  revert hfalse
  decide

end Rules
end Udev
