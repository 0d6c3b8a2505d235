import Mathlib.Data.List.GetD

/-! Binary search in an array, by how the wanted key compares with the element at an index.
The keys before a place are smaller, the keys from it on are larger, and the search ends at
the place or at the element that is equal. -/
namespace Udev
namespace Bisect

/-- The loop over the window of the indices from `first` to before `last`. The middle is
computed by the caller; without a result the fuel was too small. -/
def bisect (middle : ℕ → ℕ → ℕ) (cmp : ℕ → Ordering) : ℕ → ℕ → ℕ → Option (ℕ ⊕ ℕ)
  | 0, first, last => if first < last then none else some (.inr first)
  | fuel+1, first, last =>
    if first < last then
      match cmp (middle first last) with
      | .lt => bisect middle cmp fuel first (middle first last)
      | .gt => bisect middle cmp fuel (middle first last+1) last
      | .eq => some (.inl (middle first last))
    else some (.inr first)

variable {middle : ℕ → ℕ → ℕ} {cmp : ℕ → Ordering} {size : ℕ}

def Middle (middle : ℕ → ℕ → ℕ) (size : ℕ) : Prop :=
  ∀ first last, first < last → last ≤ size → first ≤ middle first last ∧ middle first last < last

/-- The key is smaller than the elements before the place and larger than those from it on. -/
structure Place (cmp : ℕ → Ordering) (size place : ℕ) : Prop where
  le : place ≤ size
  before : ∀ i < place, cmp i = .gt
  after : ∀ i, place ≤ i → i < size → cmp i = .lt

/-- The key is equal to the element at the index and to no other. -/
structure Found (cmp : ℕ → Ordering) (size index : ℕ) : Prop where
  lt : index < size
  before : ∀ i < index, cmp i = .gt
  equal : cmp index = .eq
  after : ∀ i, index < i → i < size → cmp i = .lt

theorem bisect_place (hmiddle : Middle middle size) {place : ℕ} (h : Place cmp size place) {fuel first last : ℕ}
    (hfirst : first ≤ place) (hlast : place ≤ last) (hsize : last ≤ size) (hfuel : last ≤ first+fuel) :
    bisect middle cmp fuel first last = some (.inr place) := by
  induction fuel generalizing first last with
  | zero =>
    have hempty : ¬first < last := by omega
    have hplace : first = place := by omega
    rw [bisect,if_neg hempty,hplace]
  | succ fuel ih =>
    rw [bisect]
    by_cases hlt : first < last
    · obtain ⟨hge,hmid⟩ := hmiddle first last hlt hsize
      rw [if_pos hlt]
      by_cases hbefore : middle first last < place
      · rw [h.before _ hbefore]
        exact ih hbefore hlast hsize (by omega)
      · rw [h.after _ (Nat.le_of_not_lt hbefore) (by omega)]
        exact ih hfirst (Nat.le_of_not_lt hbefore) (by omega) (by omega)
    · have hplace : first = place := by omega
      rw [if_neg hlt,hplace]

theorem bisect_found (hmiddle : Middle middle size) {index : ℕ} (h : Found cmp size index) {fuel first last : ℕ}
    (hfirst : first ≤ index) (hlast : index < last) (hsize : last ≤ size) (hfuel : last ≤ first+fuel) :
    bisect middle cmp fuel first last = some (.inl index) := by
  induction fuel generalizing first last with
  | zero => omega
  | succ fuel ih =>
    have hlt : first < last := by omega
    obtain ⟨hge,hmid⟩ := hmiddle first last hlt hsize
    rw [bisect,if_pos hlt]
    rcases Nat.lt_trichotomy (middle first last) index with hm | hm | hm
    · rw [h.before _ hm]
      exact ih hm hlast hsize (by omega)
    · rw [hm,h.equal]
    · rw [h.after _ hm (by omega)]
      exact ih hfirst hm (by omega) (by omega)

section Keys

variable {κ β : Type*} [LT κ] [DecidableLT κ] [DecidableEq κ] {f : β → κ} {key : κ}

def compareAt (f : β → κ) (key : κ) (array : List β) (default : β) (i : ℕ) : Ordering :=
  compareOfLessAndEq key (f (array.getD i default))

theorem compareAt_lt {array : List β} {default : β} {i : ℕ} (h : key < f (array.getD i default)) :
    compareAt f key array default i = .lt := if_pos h

variable [LE κ] [Std.LawfulOrderLT κ]

theorem compareAt_gt {array : List β} {default : β} {i : ℕ} (h : f (array.getD i default) < key) :
    compareAt f key array default i = .gt := by
  rw [compareAt,compareOfLessAndEq,if_neg (Std.not_gt_of_lt h),if_neg (Std.ne_of_lt h).symm]

theorem compareAt_eq {array : List β} {default : β} {i : ℕ} (h : f (array.getD i default) = key) :
    compareAt f key array default i = .eq := by
  rw [compareAt,compareOfLessAndEq,h,if_neg Std.lt_irrefl,if_pos rfl]

variable {l l' : List β} {default : β} {middle : ℕ → ℕ → ℕ}

theorem bisect_sorted_place (hl : ∀ x ∈ l, f x < key) (hl' : ∀ x ∈ l', key < f x)
    (hmiddle : Middle middle (l ++ l').length) :
    bisect middle (compareAt f key (l ++ l') default) (l ++ l').length 0 (l ++ l').length = some (.inr l.length) := by
  refine bisect_place hmiddle ⟨by simp,?_,?_⟩ (Nat.zero_le _) (by simp) (Nat.le_refl _) (by omega)
  · intro i hi
    refine compareAt_gt ?_
    rw [List.getD_append _ _ _ _ hi,List.getD_eq_getElem _ _ hi]
    exact hl _ (List.getElem_mem hi)
  · intro i hi hi'
    rw [List.length_append] at hi'
    refine compareAt_lt ?_
    rw [List.getD_append_right _ _ _ _ hi,List.getD_eq_getElem _ _ (by omega)]
    exact hl' _ (List.getElem_mem _)

theorem bisect_sorted_found {b : β} (hb : f b = key) (hl : ∀ x ∈ l, f x < key) (hl' : ∀ x ∈ l', key < f x)
    (hmiddle : Middle middle (l ++ b::l').length) :
    bisect middle (compareAt f key (l ++ b::l') default) (l ++ b::l').length 0 (l ++ b::l').length =
      some (.inl l.length) := by
  have hlt : l.length < (l ++ b::l').length := by simp
  refine bisect_found hmiddle ⟨hlt,?_,?_,?_⟩ (Nat.zero_le _) hlt (Nat.le_refl _) (by omega)
  · intro i hi
    refine compareAt_gt ?_
    rw [List.getD_append _ _ _ _ hi,List.getD_eq_getElem _ _ hi]
    exact hl _ (List.getElem_mem hi)
  · refine compareAt_eq ?_
    rw [List.getD_append_right _ _ _ _ (Nat.le_refl _),Nat.sub_self]
    exact hb
  · intro i hi hi'
    obtain ⟨j,rfl⟩ : ∃ j, i = l.length+(j+1) := ⟨i-l.length-1,by omega⟩
    rw [List.length_append,List.length_cons] at hi'
    refine compareAt_lt ?_
    rw [List.getD_append_right _ _ _ _ (by omega),Nat.add_sub_cancel_left,List.getD_cons_succ,
      List.getD_eq_getElem _ _ (by omega)]
    exact hl' _ (List.getElem_mem _)

variable [Std.IsLinearOrder κ]

omit [DecidableLT κ] [DecidableEq κ] in
theorem sorted_split {array : List β} (h : array.Pairwise (f · < f ·)) (key : κ) :
    (∃ l b l', array = l ++ b::l' ∧ f b = key ∧ (∀ x ∈ l, f x < key) ∧ ∀ x ∈ l', key < f x) ∨
      ∃ l l', array = l ++ l' ∧ (∀ x ∈ l, f x < key) ∧ ∀ x ∈ l', key < f x := by
  induction array with
  | nil => exact Or.inr ⟨[],[],rfl,by simp,by simp⟩
  | cons b array ih =>
    obtain ⟨hb,harray⟩ := List.pairwise_cons.mp h
    have hcons : ∀ l : List β, f b < key → (∀ x ∈ l, f x < key) → ∀ x ∈ b::l, f x < key := by
      intro l hlt hl x hx
      rcases List.mem_cons.mp hx with rfl | hx
      · exact hlt
      · exact hl x hx
    rcases Std.lt_trichotomy (f b) key with hlt | heq | hgt
    · rcases ih harray with ⟨l,c,l',rfl,hc,hl,hl'⟩ | ⟨l,l',rfl,hl,hl'⟩
      · exact Or.inl ⟨b::l,c,l',rfl,hc,hcons l hlt hl,hl'⟩
      · exact Or.inr ⟨b::l,l',rfl,hcons l hlt hl,hl'⟩
    · exact Or.inl ⟨[],b,array,rfl,heq,by simp,fun x hx => heq ▸ hb x hx⟩
    · refine Or.inr ⟨[],b::array,rfl,by simp,?_⟩
      intro x hx
      rcases List.mem_cons.mp hx with rfl | hx
      · exact hgt
      · exact Std.lt_trans hgt (hb x hx)

end Keys

end Bisect
end Udev
