import Udev.SortedMap
import Mathlib.Data.List.Lex
import Mathlib.Order.Lattice

/-! Lists of entries of which the last one with a key counts. When the entries come in the order
of a rank of the candidates they are from, a key has the value of its highest candidate. -/
namespace Udev

variable {κ β ι ι' ρ ρ' : Type} [DecidableEq κ]

def lastEntry (l : List (κ × β)) (k : κ) : Option β := SortedMap.get l.reverse k

theorem lastEntry_append (a b : List (κ × β)) (k : κ) :
    lastEntry (a ++ b) k = (lastEntry b k).or (lastEntry a k) := by
  rw [lastEntry,List.reverse_append,SortedMap.get,List.find?_append,Option.map_or]
  rfl

theorem mem_of_lastEntry {l : List (κ × β)} {k : κ} {v : β} (h : lastEntry l k = some v) : (k,v) ∈ l :=
  List.mem_reverse.mp (SortedMap.mem_of_get h)

theorem lastEntry_eq_none {l : List (κ × β)} {k : κ} : lastEntry l k = none ↔ ∀ e ∈ l, e.1 ≠ k := by
  rw [lastEntry,SortedMap.get_eq_none]
  simp only [List.mem_reverse]

variable [LinearOrder ρ] [LinearOrder ρ']

/-- The entries are those of the candidates, and the last one with a key is of a highest one. -/
structure Ranked (l : List (κ × β)) (M : ι → κ × β → Prop) (rank : ι → ρ) : Prop where
  mem : ∀ e, e ∈ l ↔ ∃ i, M i e
  best : ∀ k v, lastEntry l k = some v → ∃ i, M i (k,v) ∧ ∀ j w, M j (k,w) → rank j ≤ rank i

namespace Ranked

variable {l a b : List (κ × β)} {M M₁ M₂ : ι → κ × β → Prop} {rank : ι → ρ}

theorem nil (h : ∀ i e, ¬M i e) : Ranked [] M rank where
  mem e := by simp [h]
  best k v hlast := by cases hlast

theorem of_mem (hmem : ∀ e, e ∈ l ↔ ∃ i, M i e) (hrank : ∀ i j e e', M i e → M j e' → rank j ≤ rank i) :
    Ranked l M rank where
  mem := hmem
  best k v hlast := by
    obtain ⟨i,hi⟩ := (hmem _).mp (mem_of_lastEntry hlast)
    exact ⟨i,hi,fun j w hj => hrank i j _ _ hi hj⟩

theorem congr (h : Ranked l M₁ rank) (hM : ∀ i e, M i e ↔ M₁ i e) : Ranked l M rank where
  mem e := (h.mem e).trans (exists_congr fun i => (hM i e).symm)
  best k v hlast := by
    obtain ⟨i,hi,hbest⟩ := h.best k v hlast
    exact ⟨i,(hM i _).mpr hi,fun j w hj => hbest j w ((hM j _).mp hj)⟩

theorem map {N : ι' → κ × β → Prop} {rank' : ι' → ρ'} (h : Ranked l M rank) (f : ι → ι')
    (hN : ∀ i e, N i e ↔ ∃ j, i = f j ∧ M j e)
    (hrank : ∀ i j e e', M i e → M j e' → rank j ≤ rank i → rank' (f j) ≤ rank' (f i)) : Ranked l N rank' where
  mem e := by
    rw [h.mem]
    constructor
    · rintro ⟨i,hi⟩
      exact ⟨f i,(hN _ _).mpr ⟨i,rfl,hi⟩⟩
    · rintro ⟨i,hi⟩
      obtain ⟨j,-,hj⟩ := (hN _ _).mp hi
      exact ⟨j,hj⟩
  best k v hlast := by
    obtain ⟨i,hi,hbest⟩ := h.best k v hlast
    refine ⟨f i,(hN _ _).mpr ⟨i,rfl,hi⟩,?_⟩
    intro _ w hw
    obtain ⟨j,rfl,hj⟩ := (hN _ _).mp hw
    exact hrank i j _ _ hi hj (hbest j w hj)

theorem append (ha : Ranked a M₁ rank) (hb : Ranked b M₂ rank) (hM : ∀ i e, M i e ↔ M₁ i e ∨ M₂ i e)
    (hrank : ∀ i j e e', M₁ i e → M₂ j e' → rank i ≤ rank j) : Ranked (a ++ b) M rank where
  mem e := by
    rw [List.mem_append,ha.mem,hb.mem,← exists_or]
    exact exists_congr fun i => (hM i e).symm
  best k v hlast := by
    rw [lastEntry_append] at hlast
    rcases Option.or_eq_some_iff.mp hlast with hlater | ⟨hnone,hfirst⟩
    · obtain ⟨i,hi,hbest⟩ := hb.best k v hlater
      refine ⟨i,(hM _ _).mpr (Or.inr hi),?_⟩
      intro j w hj
      rcases (hM _ _).mp hj with hj | hj
      · exact hrank j i _ _ hj hi
      · exact hbest j w hj
    · obtain ⟨i,hi,hbest⟩ := ha.best k v hfirst
      refine ⟨i,(hM _ _).mpr (Or.inl hi),?_⟩
      intro j w hj
      rcases (hM _ _).mp hj with hj | hj
      · exact hbest j w hj
      · exact absurd rfl (lastEntry_eq_none.mp hnone (k,w) ((hb.mem _).mpr ⟨j,hj⟩))

end Ranked
end Udev
