import Udev.Interpreter
import Mathlib.Order.Bounds.Basic
import Mathlib.Order.WellFounded

/-! The parent matches of a rule. All of them have to hold at one device of the chain, and
the nearest such device is selected. The block compares a TAGS key with the value of the
first key of the sequence; it is right where that makes no difference. -/
namespace Udev
namespace Rules

open RuleLine

theorem exists_isLeast {S : Set ℕ} (hS : S.Nonempty) : ∃ i, IsLeast S i :=
  ⟨WellFounded.min wellFounded_lt S hS,WellFounded.min_mem _ S hS,
    fun _ hj => not_lt.mp (WellFounded.not_lt_min _ S hj)⟩

/-- Two searches for the least number agree when the tests agree up to the first hit. -/
theorem isLeast_agree {A B : Set ℕ} :
    ((B.Nonempty ↔ A.Nonempty) ∧ ∀ i, IsLeast B i → IsLeast A i) ↔
      ∀ i, (∀ j ∈ A, i ≤ j) → (i ∈ A ↔ i ∈ B) := by
  constructor
  · rintro ⟨hne,hsame⟩ i hi
    constructor
    · intro hA
      obtain ⟨j,hj⟩ := exists_isLeast (hne.mpr ⟨i,hA⟩)
      have hij : j = i := (hsame j hj).unique ⟨hA,hi⟩
      exact hij ▸ hj.1
    · intro hB
      obtain ⟨j,hj⟩ := exists_isLeast ⟨i,hB⟩
      have hA := hsame j hj
      have hij : j = i := le_antisymm (hj.2 hB) (hi j hA.1)
      exact hij ▸ hA.1
  · intro hagree
    have hsame : ∀ i, IsLeast B i → IsLeast A i := by
      intro i hB
      have hfirst : ∀ j ∈ A, i ≤ j := by
        intro j hj
        obtain ⟨m,hm⟩ := exists_isLeast ⟨j,hj⟩
        exact (hB.2 ((hagree m hm.2).mp hm.1)).trans (hm.2 hj)
      exact ⟨(hagree i hfirst).mpr hB.1,hfirst⟩
    refine ⟨⟨fun hB => ?_,fun hA => ?_⟩,hsame⟩
    · obtain ⟨i,hi⟩ := exists_isLeast hB
      exact ⟨i,(hsame i hi).1⟩
    · obtain ⟨i,hi⟩ := exists_isLeast hA
      exact ⟨i,(hagree i hi.2).mp hi.1⟩

section Parents

variable {σ : Type} (h : Host σ) (s : σ) (ev : Event)

/-- TAGS with a value: the device has the tag, or for `!=` has it not. -/
def tagHolds (d : Device) (k : KeyToken) (value : CString) : Bool :=
  if k.op = .opNomatch then !d.hasTag value else d.hasTag value

def keyHolds (d : Device) (k : KeyToken) : Bool :=
  match k.type with
  | .mKernels => matchKey h k (some d.sysname)
  | .mSubsystems => matchKey h k d.subsystem
  | .mDrivers => matchKey h k d.driver
  | .mAttrs => (matchAttr h s ev d k).1
  | .mTags => tagHolds d k k.value
  | _ => false

/-- The places of the devices at which all keys hold. -/
def parentHolds (keys : List KeyToken) : Set ℕ :=
  {i | ∃ d, ev.chain[i]? = some d ∧ ∀ k ∈ keys, keyHolds h s { ev with devParent := some i } d k = true}

def parentStops (first : KeyToken) (keys : List KeyToken) : Set ℕ :=
  {i | ∃ d, ev.chain[i]? = some d ∧
    ∀ k ∈ keys, (parentKey h s { ev with devParent := some i } first d k).1 = true}

variable {h s ev}

theorem parentKeys_fst (first : KeyToken) (d : Device) (keys : List KeyToken) :
    (parentKeys h s ev first d keys).1 = true ↔ ∀ k ∈ keys, (parentKey h s ev first d k).1 = true := by
  induction keys with
  | nil => simp [parentKeys]
  | cons k ks ih =>
    simp only [parentKeys,List.forall_mem_cons]
    split_ifs with hk
    · simp [hk,ih]
    · simp [hk]

theorem parentLoop_spec (h : Host σ) (s : σ) (ev : Event) (first : KeyToken) (keys : List KeyToken) (ds : List Device) (i : ℕ) :
    match (parentLoop h s ev first keys ds i).1 with
    | some j => ∃ m d, j = i+m ∧ ds[m]? = some d ∧
        (parentKeys h s { ev with devParent := some (i+m) } first d keys).1 = true ∧
        ∀ l < m, ∀ d', ds[l]? = some d' →
          (parentKeys h s { ev with devParent := some (i+l) } first d' keys).1 = false
    | none => ∀ l d', ds[l]? = some d' →
        (parentKeys h s { ev with devParent := some (i+l) } first d' keys).1 = false := by
  induction ds generalizing i with
  | nil => simp [parentLoop]
  | cons d ds ih =>
    cases hk : (parentKeys h s { ev with devParent := some i } first d keys).1 with
    | true =>
      simp only [parentLoop,hk,if_true]
      exact ⟨0,d,rfl,rfl,hk,by simp⟩
    | false =>
      have hloop : (parentLoop h s ev first keys (d::ds) i).1 = (parentLoop h s ev first keys ds (i+1)).1 := by
        simp [parentLoop,hk]
      have hnext := ih (i+1)
      have hshift : ∀ l, i+1+l = i+(l+1) := fun l => by omega
      simp only [hshift] at hnext
      rw [hloop]
      cases hr : (parentLoop h s ev first keys ds (i+1)).1 with
      | none =>
        rw [hr] at hnext
        intro l d' hd'
        cases l with
        | zero =>
          cases hd'
          exact hk
        | succ l => exact hnext l d' (by simpa using hd')
      | some j =>
        rw [hr] at hnext
        obtain ⟨m,d₀,rfl,hd₀,hkeys,hbefore⟩ := hnext
        refine ⟨m+1,d₀,by omega,by simpa using hd₀,hkeys,fun l hl d' hd' => ?_⟩
        cases l with
        | zero =>
          cases hd'
          exact hk
        | succ l => exact hbefore l (by omega) d' (by simpa using hd')

theorem mem_parentStops {first : KeyToken} {keys : List KeyToken} {i : ℕ} :
    i ∈ parentStops h s ev first keys ↔ ∃ d, ev.chain[i]? = some d ∧
      (parentKeys h s { ev with devParent := some i } first d keys).1 = true := by
  simp only [parentStops,Set.mem_ofPred_eq,parentKeys_fst]

/-- The block succeeds when the loop stops somewhere, and then selects the nearest place. -/
theorem matchParents_stops (h : Host σ) (s : σ) (ev : Event) (keys : List KeyToken) :
    ((matchParents h s ev keys).1 = true ↔ (parentStops h s ev (keys.headD {}) keys).Nonempty) ∧
    ∀ i, (matchParents h s ev keys).2.devParent = some i ↔
      IsLeast (parentStops h s ev (keys.headD {}) keys) i := by
  have hspec := parentLoop_spec h s ev (keys.headD {}) keys ev.chain 0
  have hdev : (matchParents h s ev keys).2.devParent =
      (parentLoop h s ev (keys.headD {}) keys ev.chain 0).1 := rfl
  have hok : (matchParents h s ev keys).1 =
      (parentLoop h s ev (keys.headD {}) keys ev.chain 0).1.isSome := rfl
  rw [hdev,hok]
  simp only [Nat.zero_add] at hspec
  cases hr : (parentLoop h s ev (keys.headD {}) keys ev.chain 0).1 with
  | none =>
    rw [hr] at hspec
    have hempty : ∀ i, i ∉ parentStops h s ev (keys.headD {}) keys := fun i hi => by
      obtain ⟨d,hd,hkeys⟩ := mem_parentStops.mp hi
      rw [hspec i d hd] at hkeys
      cases hkeys
    refine ⟨⟨fun h => absurd h (by simp),fun ⟨i,hi⟩ => absurd hi (hempty i)⟩,fun i => ?_⟩
    exact ⟨fun h => absurd h (by simp),fun hi => absurd hi.1 (hempty i)⟩
  | some j =>
    rw [hr] at hspec
    obtain ⟨m,d,rfl,hd,hkeys,hbefore⟩ := hspec
    have hleast : IsLeast (parentStops h s ev (keys.headD {}) keys) j := by
      refine ⟨mem_parentStops.mpr ⟨d,hd,hkeys⟩,fun i hi => ?_⟩
      obtain ⟨d',hd',hkeys'⟩ := mem_parentStops.mp hi
      by_contra hlt
      rw [hbefore i (not_le.mp hlt) d' hd'] at hkeys'
      cases hkeys'
    refine ⟨⟨fun _ => ⟨j,hleast.1⟩,fun _ => rfl⟩,fun i => ⟨fun h => ?_,fun hi => ?_⟩⟩
    · exact Option.some.inj h ▸ hleast
    · rw [hleast.unique hi]

/-- At every device up to the nearest one at which all keys hold, where the other keys
hold the TAGS keys answer the same with the value of the first key. -/
def TagsAgree (h : Host σ) (s : σ) (ev : Event) (keys : List KeyToken) : Prop :=
  ∀ i d, ev.chain[i]? = some d → (∀ j ∈ parentHolds h s ev keys, i ≤ j) →
    (∀ k ∈ keys, k.type ≠ .mTags → keyHolds h s { ev with devParent := some i } d k = true) →
    ((∀ k ∈ keys, k.type = .mTags → tagHolds d k k.value = true) ↔
      ∀ k ∈ keys, k.type = .mTags → tagHolds d k (keys.headD {}).value = true)

theorem parentKey_other {d : Device} {first k : KeyToken} (hk : k.type ≠ .mTags) :
    (parentKey h s ev first d k).1 = keyHolds h s ev d k := by
  unfold parentKey keyHolds
  split <;> simp_all

theorem parentKey_tags {d : Device} {first k : KeyToken} (hk : k.type = .mTags) (hop : k.op.isMatch = true) :
    (parentKey h s ev first d k).1 = tagHolds d k first.value := by
  unfold parentKey tagHolds
  cases ho : k.op <;> cases ht : d.hasTag first.value <;> simp_all [Op.isMatch]

theorem keyHolds_tags {d : Device} {k : KeyToken} (hk : k.type = .mTags) :
    keyHolds h s ev d k = tagHolds d k k.value := by
  simp [keyHolds,hk]

theorem tagsAgree_iff {keys : List KeyToken} (hops : ∀ k ∈ keys, k.op.isMatch = true) :
    TagsAgree h s ev keys ↔ ∀ i, (∀ j ∈ parentHolds h s ev keys, i ≤ j) →
      (i ∈ parentHolds h s ev keys ↔ i ∈ parentStops h s ev (keys.headD {}) keys) := by
  have hsplit : ∀ P : KeyToken → Prop, (∀ k ∈ keys, P k) ↔
      (∀ k ∈ keys, k.type ≠ .mTags → P k) ∧ ∀ k ∈ keys, k.type = .mTags → P k := fun P =>
    ⟨fun hall => ⟨fun k hk _ => hall k hk,fun k hk _ => hall k hk⟩,fun ⟨hother,htags⟩ k hk =>
      (em (k.type = .mTags)).elim (htags k hk) (hother k hk)⟩
  have hiff : ∀ i d, ((∀ k ∈ keys, keyHolds h s { ev with devParent := some i } d k = true) ↔
        ∀ k ∈ keys, (parentKey h s { ev with devParent := some i } (keys.headD {}) d k).1 = true) ↔
      ((∀ k ∈ keys, k.type ≠ .mTags → keyHolds h s { ev with devParent := some i } d k = true) →
        ((∀ k ∈ keys, k.type = .mTags → tagHolds d k k.value = true) ↔
          ∀ k ∈ keys, k.type = .mTags → tagHolds d k (keys.headD {}).value = true)) := by
    intro i d
    have hown : (∀ k ∈ keys, k.type = .mTags → keyHolds h s { ev with devParent := some i } d k = true) ↔
        ∀ k ∈ keys, k.type = .mTags → tagHolds d k k.value = true :=
      forall₂_congr fun k _ => forall_congr' fun hk => by rw [keyHolds_tags hk]
    have hother : (∀ k ∈ keys, k.type ≠ .mTags →
          (parentKey h s { ev with devParent := some i } (keys.headD {}) d k).1 = true) ↔
        ∀ k ∈ keys, k.type ≠ .mTags → keyHolds h s { ev with devParent := some i } d k = true :=
      forall₂_congr fun k _ => forall_congr' fun hk => by rw [parentKey_other hk]
    have hfirst : (∀ k ∈ keys, k.type = .mTags →
          (parentKey h s { ev with devParent := some i } (keys.headD {}) d k).1 = true) ↔
        ∀ k ∈ keys, k.type = .mTags → tagHolds d k (keys.headD {}).value = true :=
      forall₂_congr fun k hmem => forall_congr' fun hk => by rw [parentKey_tags hk (hops k hmem)]
    rw [hsplit,hsplit fun k => (parentKey h s { ev with devParent := some i } (keys.headD {}) d k).1 = true,
      hown,hother,hfirst,and_congr_right_iff]
  constructor
  · intro hagree i hi
    constructor
    · rintro ⟨d,hd,hall⟩
      exact ⟨d,hd,((hiff i d).mpr (hagree i d hd hi)).mp hall⟩
    · rintro ⟨d,hd,hall⟩
      exact ⟨d,hd,((hiff i d).mpr (hagree i d hd hi)).mpr hall⟩
  · intro hmem i d hd hi
    refine (hiff i d).mp ⟨fun hall => ?_,fun hall => ?_⟩
    · obtain ⟨d',hd',hall'⟩ := (hmem i hi).mp ⟨d,hd,hall⟩
      rw [hd] at hd'
      exact Option.some.inj hd' ▸ hall'
    · obtain ⟨d',hd',hall'⟩ := (hmem i hi).mpr ⟨d,hd,hall⟩
      rw [hd] at hd'
      exact Option.some.inj hd' ▸ hall'

/-- The parent block succeeds exactly when all keys hold at some device of the chain, and
then selects the nearest one, if and only if the TAGS keys agree. -/
theorem parent_match_exact (h : Host σ) (s : σ) (ev : Event) (keys : List KeyToken)
    (hops : ∀ k ∈ keys, k.op.isMatch = true) :
    (((matchParents h s ev keys).1 = true ↔ (parentHolds h s ev keys).Nonempty) ∧
      ((matchParents h s ev keys).1 = true →
        ∃ i, (matchParents h s ev keys).2.devParent = some i ∧ IsLeast (parentHolds h s ev keys) i)) ↔
    TagsAgree h s ev keys := by
  obtain ⟨hok,hdev⟩ := matchParents_stops h s ev keys
  rw [tagsAgree_iff hops,← isLeast_agree,hok]
  refine and_congr_right fun _ => ⟨fun hsel i hi => ?_,fun hsame hB => ?_⟩
  · obtain ⟨j,hj,hleast⟩ := hsel ⟨i,hi.1⟩
    rwa [((hdev j).mp hj).unique hi] at hleast
  · obtain ⟨i,hi⟩ := exists_isLeast hB
    exact ⟨i,(hdev i).mpr hi,hsame i hi⟩

end Parents

/-- The parent keys of a rule file with one rule. -/
def ruleParents (file : CString) : List KeyToken := parentSeq ((rulesLoad plainOptions [some file]).drop 1)

def taggedDisk : Device := { sysname := str "sda", tagsList := [⟨str "seat",none,0⟩] }

def diskPart : Event := { dev := { sysname := str "sda1" }, parents := [taggedDisk] }

def seatRule : CString := str "TAGS==\"seat\", NAME=\"a\"\n"

set_option maxRecDepth 8000 in
theorem parent_match_exact_seat : (∀ k ∈ ruleParents seatRule, k.op.isMatch = true) ∧
    ∃ i, (matchParents emptyHost () diskPart (ruleParents seatRule)).2.devParent = some i ∧
      IsLeast (parentHolds emptyHost () diskPart (ruleParents seatRule)) i := by
  have hops : ∀ k ∈ ruleParents seatRule, k.op.isMatch = true := by decide
  have hvalue : ∀ k ∈ ruleParents seatRule, k.value = ((ruleParents seatRule).headD {}).value := by decide
  have hagree : TagsAgree emptyHost () diskPart (ruleParents seatRule) := fun i d _ _ _ =>
    forall₂_congr fun k hk => by rw [hvalue k hk]
  refine ⟨hops,((parent_match_exact emptyHost () diskPart _ hops).mpr hagree).2 ?_⟩
  decide

def diskSeatRule : CString := str "KERNELS==\"sda\", TAGS==\"seat\", NAME=\"a\"\n"

set_option maxRecDepth 8000 in
/-- A device with the name and the tag is not found: the tag is compared with the name. -/
theorem tags_compared_with_first_key :
    (∀ k ∈ ruleParents diskSeatRule, k.type.isParent = true ∧ k.op.isMatch = true) ∧
    (parentHolds emptyHost () diskPart (ruleParents diskSeatRule)).Nonempty ∧
    (matchParents emptyHost () diskPart (ruleParents diskSeatRule)).1 = false := by
  have hholds : ∀ k ∈ ruleParents diskSeatRule,
      keyHolds emptyHost () { diskPart with devParent := some 1 } taggedDisk k = true := by decide
  exact ⟨by decide,⟨1,taggedDisk,rfl,hholds⟩,by decide⟩

end Rules
end Udev
