import Udev.HwdbTrie

/-! The index after a sequence of insertions: for each pattern the last value of each key.
With ASCII patterns the index depends on nothing else. -/
namespace Udev
namespace Hwdb

open RadixTree Strbuf

abbrev Insertion := CString × CString × CString

/-- One `trie_insert` after the other. -/
def insertAll (trie : Trie) (l : List Insertion) : Trie := l.foldl (fun t r => trieInsert t r.1 r.2.1 r.2.2) trie

def NulFree (l : List Insertion) : Prop := ∀ r ∈ l, 0 ∉ r.1 ∧ 0 ∉ r.2.1 ∧ 0 ∉ r.2.2

instance (l : List Insertion) : Decidable (NulFree l) := inferInstanceAs (Decidable (∀ r ∈ l, _))

/-- The value that was given last to a key of a pattern. -/
def lastValue (l : List Insertion) (pattern key : CString) : Option CString :=
  l.foldl (fun v r => if r.1 = pattern ∧ r.2.1 = key then some r.2.2 else v) none

def insertStrings (t : StringTree) (l : List Insertion) : StringTree :=
  l.foldl (fun t r => RadixTree.insert sameChar [] (addValue r.2.1 r.2.2) t r.1) t

theorem sameChar_eq (a b : UInt8) (h : sameChar a b = true) : a = b := by
  simp only [sameChar,Bool.and_eq_true,decide_eq_true_eq] at h
  exact h.1

section AddValue

variable {l : List (CString × CString)} {key value : CString}

theorem sorted_addValue (h : SortedMap.Sorted l) (key value : CString) : SortedMap.Sorted (addValue key value l) := by
  unfold addValue
  split
  · exact h.set key value
  · next hget => exact h.insert hget value

theorem get_addValue (l : List (CString × CString)) (key value k : CString) :
    SortedMap.get (addValue key value l) k = if key = k then some value else SortedMap.get l k := by
  unfold addValue
  split
  · next hget => exact SortedMap.get_set (by rw [hget]; rfl) value k
  · next hget => exact SortedMap.get_insert hget value k

theorem addValue_ne_nil (key value : CString) (l : List (CString × CString)) : addValue key value l ≠ [] := by
  intro h
  have hget := get_addValue l key value key
  rw [h,if_pos rfl] at hget
  cases hget

end AddValue

theorem insertAll_spec {trie : Trie} (h : trie.Valid) {l : List Insertion} (hl : NulFree l) :
    (insertAll trie l).Valid ∧ (insertAll trie l).tree = insertStrings trie.tree l := by
  induction l generalizing trie with
  | nil => exact ⟨h,rfl⟩
  | cons r l ih =>
    obtain ⟨hpattern,hkey,hvalue⟩ := hl r List.mem_cons_self
    obtain ⟨hvalid,htree⟩ := trieInsert_spec h hpattern hkey hvalue
    obtain ⟨hvalid',htree'⟩ := ih hvalid fun x hx => hl x (List.mem_cons_of_mem _ hx)
    exact ⟨hvalid',by rw [insertAll,List.foldl_cons,← insertAll,htree',htree]; rfl⟩

def emptyTree : StringTree := .node ([],[]) []

theorem tree_trieNew : trieNew.tree = emptyTree := view_node _ _ _

section Strings

variable {l : List Insertion}

theorem insertStrings_invariant {P : StringTree → Prop} (h₀ : P emptyTree)
    (hstep : ∀ r ∈ l, ∀ t t', Inserted sameChar [] (addValue r.2.1 r.2.2) t r.1 t' → P t → P t') :
    P (insertStrings emptyTree l) := by
  induction l using List.reverseRecOn with
  | nil => exact h₀
  | append_singleton l r ih =>
    rw [insertStrings,List.foldl_append,List.foldl_cons,List.foldl_nil]
    exact hstep r (by simp) _ _ (inserted sameChar_eq _ _ _) (ih fun x hx => hstep x (by simp [hx]))

theorem ordered_insertStrings (l : List Insertion) : Ordered (insertStrings emptyTree l) :=
  insertStrings_invariant (.node List.Pairwise.nil (by simp)) fun _ _ _ _ h => h.ordered

theorem letters_insertStrings {P : UInt8 → Prop} (hl : ∀ r ∈ l, ∀ c ∈ r.1, P c) :
    Letters P (insertStrings emptyTree l) :=
  insertStrings_invariant (.node ⟨by simp,by simp⟩ (by simp)) fun r hr _ _ h => h.letters (hl r hr)

theorem values_insertStrings (l : List Insertion) : Values SortedMap.Sorted (insertStrings emptyTree l) :=
  insertStrings_invariant (.node List.Pairwise.nil (by simp)) fun _ _ _ _ h =>
    h.values List.Pairwise.nil fun _ hv => sorted_addValue hv _ _

/-- Each pattern has the last value of each of its keys, in the order of the keys. -/
theorem find_insertStrings (l : List Insertion) (pattern : CString) :
    SortedMap.Sorted (find [] (insertStrings emptyTree l) pattern) ∧
      ∀ key, SortedMap.get (find [] (insertStrings emptyTree l) pattern) key = lastValue l pattern key := by
  induction l using List.reverseRecOn with
  | nil =>
    have hnil : find [] emptyTree pattern = [] := by
      rcases prefix_cases [] pattern with rfl | ⟨c,rest,rfl⟩ | h
      · exact find_self
      · exact find_child c rest
      · exact find_other h
    rw [insertStrings,List.foldl_nil,hnil]
    exact ⟨List.Pairwise.nil,fun _ => rfl⟩
  | append_singleton l r ih =>
    have hinserted : Inserted sameChar [] (addValue r.2.1 r.2.2) (insertStrings emptyTree l) r.1 _ :=
      inserted sameChar_eq _ _ _
    have hfind := hinserted.find pattern
    rw [insertStrings,List.foldl_append,List.foldl_cons,List.foldl_nil,← insertStrings,hfind]
    simp only [lastValue,List.foldl_append,List.foldl_cons,List.foldl_nil]
    by_cases hp : pattern = r.1
    · subst hp
      rw [if_pos rfl]
      refine ⟨sorted_addValue ih.1 _ _,?_⟩
      intro key
      rw [get_addValue,ih.2 key]
      by_cases hk : r.2.1 = key
      · rw [if_pos hk,if_pos ⟨rfl,hk⟩]
      · rw [if_neg hk,if_neg fun h => hk h.2]
        rfl
    · rw [if_neg hp]
      refine ⟨ih.1,?_⟩
      intro key
      rw [ih.2 key,if_neg fun h => hp h.1.symm]
      rfl

/-- With ASCII patterns a node stands only at the end of a pattern and where patterns part. -/
theorem canonicalRoot_insertStrings (hl : ∀ r ∈ l, ∀ c ∈ r.1, c < 0x80) :
    CanonicalRoot [] (insertStrings emptyTree l) := by
  refine insertStrings_invariant ⟨rfl,List.Pairwise.nil,by simp [emptyTree]⟩ ?_
  intro r hr t t' h
  refine h.canonicalRoot sameChar_eq (fun x => addValue_ne_nil _ _ _) ?_
  intro c hc
  simp [sameChar,hl r hr c hc]

theorem insertStrings_eq {l' : List Insertion} (hl : ∀ r ∈ l, ∀ c ∈ r.1, c < 0x80)
    (hl' : ∀ r ∈ l', ∀ c ∈ r.1, c < 0x80) (hlast : ∀ pattern key, lastValue l pattern key = lastValue l' pattern key) :
    insertStrings emptyTree l = insertStrings emptyTree l' := by
  refine (canonicalRoot_insertStrings hl).ext (canonicalRoot_insertStrings hl') ?_
  intro pattern
  obtain ⟨hsorted,hget⟩ := find_insertStrings l pattern
  obtain ⟨hsorted',hget'⟩ := find_insertStrings l' pattern
  refine hsorted.ext hsorted' ?_
  intro key
  rw [hget,hget',hlast]

end Strings

end Hwdb
end Udev
