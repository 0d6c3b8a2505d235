import Mathlib.Data.List.Basic
import Mathlib.Data.List.Nodup
import Mathlib.Data.List.Infix
import Mathlib.Order.Lattice

/-! Stable sorting by a key and permutations that keep some pairs in order. A stable
sort is determined by the elements of each key in their order, so a permutation that
keeps elements of equal keys in order does not change it. -/
namespace Udev
namespace StableSort

variable {α β κ : Type*} [LinearOrder κ]

/-- The elements in the order of their keys, those of one key in their old order. -/
structure Sorts (key : α → κ) (l out : List α) : Prop where
  sorted : out.Pairwise fun a b => key a ≤ key b
  stable : ∀ k, out.filter (key · = k) = l.filter (key · = k)

variable {key : α → κ}

theorem Sorts.mem {l out : List α} (h : Sorts key l out) {a : α} (ha : a ∈ out) : a ∈ l := by
  have : a ∈ out.filter (key · = key a) := List.mem_filter.mpr ⟨ha,by simp⟩
  rw [h.stable] at this
  exact List.mem_of_mem_filter this

theorem Sorts.perm [DecidableEq α] {l out : List α} (h : Sorts key l out) : out.Perm l := by
  refine List.perm_iff_count.mpr fun a => ?_
  have hout := List.count_filter (p := (key · = key a)) (l := out) (a := a) (by simp)
  have hl := List.count_filter (p := (key · = key a)) (l := l) (a := a) (by simp)
  rw [← hout,h.stable,hl]

theorem sorts_nil : Sorts key [] [] := ⟨List.Pairwise.nil,fun _ => rfl⟩

theorem Sorts.select {A B out : List α} {x : α} (hA : ∀ a ∈ A, key x < key a)
    (hB : ∀ b ∈ B, key x ≤ key b) (h : Sorts key (A ++ B) out) : Sorts key (A ++ x::B) (x::out) := by
  refine ⟨List.pairwise_cons.mpr ⟨fun a ha => ?_,h.sorted⟩,fun k => ?_⟩
  · rcases List.mem_append.mp (h.mem ha) with ha | ha
    · exact (hA a ha).le
    · exact hB a ha
  · have hs := h.stable k
    rw [List.filter_append] at hs ⊢
    by_cases hx : key x = k
    · have hempty : A.filter (key · = k) = [] :=
        List.filter_eq_nil_iff.mpr fun a ha => by simpa [← hx] using (hA a ha).ne'
      rw [hempty] at hs ⊢
      simp [hx,hs]
    · simp [hx,hs]

theorem Sorts.unique {l out out' : List α} (h : Sorts key l out) (h' : Sorts key l out') : out = out' := by
  have hf : ∀ k, out.filter (key · = k) = out'.filter (key · = k) := fun k =>
    (h.stable k).trans (h'.stable k).symm
  have hs := h.sorted
  have hs' := h'.sorted
  clear h h'
  induction out generalizing out' with
  | nil =>
    cases out' with
    | nil => rfl
    | cons b bs => simpa using hf (key b)
  | cons a as ih =>
    cases out' with
    | nil => simpa using (hf (key a)).symm
    | cons b bs =>
      have hmem : ∀ (x : α) (xs ys : List α), (x::xs).filter (key · = key x) = ys.filter (key · = key x) →
          x ∈ ys := fun x xs ys he =>
        List.mem_of_mem_filter (he ▸ List.mem_filter.mpr ⟨List.mem_cons_self,by simp⟩)
      have hle : key a ≤ key b := by
        rcases List.mem_cons.mp (hmem b bs (a::as) (hf (key b)).symm) with rfl | hb
        · exact le_rfl
        · exact (List.pairwise_cons.mp hs).1 b hb
      have hge : key b ≤ key a := by
        rcases List.mem_cons.mp (hmem a as (b::bs) (hf (key a))) with rfl | ha
        · exact le_rfl
        · exact (List.pairwise_cons.mp hs').1 a ha
      have hab : key b = key a := le_antisymm hge hle
      have hhead : a = b := by
        have := hf (key a)
        simp only [List.filter_cons,hab,decide_true,if_true] at this
        exact (List.cons.inj this).1
      subst hhead
      rw [ih (fun k => ?_) (List.pairwise_cons.mp hs).2 (List.pairwise_cons.mp hs').2]
      have := hf k
      simp only [List.filter_cons] at this
      split_ifs at this
      · exact (List.cons.inj this).2
      · exact this

theorem Sorts.congr {l l' out : List α} (h : Sorts key l out)
    (hl : ∀ k, l'.filter (key · = k) = l.filter (key · = k)) : Sorts key l' out :=
  ⟨h.sorted,fun k => (h.stable k).trans (hl k).symm⟩

/-- The second list is the first one permuted such that related elements stay in order:
each element carries the place it came from. -/
def Rearranges (R : α → α → Prop) (l l' : List α) : Prop :=
  ∃ m : List (α × ℕ), m.Perm l.zipIdx ∧ m.map Prod.fst = l' ∧ m.Pairwise fun x y => R x.1 y.1 → x.2 < y.2

variable {R : α → α → Prop} {l l' : List α}

theorem Rearranges.perm (h : Rearranges R l l') : l'.Perm l := by
  obtain ⟨m,hm,rfl,_⟩ := h
  simpa using hm.map Prod.fst

theorem Rearranges.mono {R' : α → α → Prop} (h : Rearranges R l l') (hR : ∀ a b, R' a b → R a b) :
    Rearranges R' l l' := by
  obtain ⟨m,hm,hl,hord⟩ := h
  exact ⟨m,hm,hl,hord.imp fun hxy hr => hxy (hR _ _ hr)⟩

theorem Rearranges.filter_eq (h : Rearranges R l l') (p : α → Bool)
    (hp : ∀ a ∈ l, ∀ b ∈ l, p a → p b → R a b) : l'.filter p = l.filter p := by
  obtain ⟨m,hm,rfl,hord⟩ := h
  have hmem : ∀ x ∈ m, x.1 ∈ l := fun x hx => by
    have := (hm.map Prod.fst).subset (List.mem_map_of_mem hx)
    simpa using this
  have hplace : l.zipIdx.Pairwise fun x y => x.2 < y.2 := by
    have : (l.zipIdx.map Prod.snd).Pairwise (· < ·) := by
      rw [List.zipIdx_map_snd]
      exact List.pairwise_lt_range'
    exact List.pairwise_map.mp this
  have heq : m.filter (fun x => p x.1) = l.zipIdx.filter fun x => p x.1 := by
    have hordered : (m.filter fun x => p x.1).Pairwise fun x y => x.2 < y.2 := by
      refine List.Pairwise.imp_of_mem ?_ (hord.filter _)
      intro x y hx hy hxy
      obtain ⟨hx,hpx⟩ := List.mem_filter.mp hx
      obtain ⟨hy,hpy⟩ := List.mem_filter.mp hy
      exact hxy (hp _ (hmem x hx) _ (hmem y hy) hpx hpy)
    exact List.Perm.eq_of_pairwise (fun a b _ _ hab hba => absurd hab (lt_asymm hba)) hordered
      (hplace.filter _) (hm.filter _)
  have hl : l = l.zipIdx.map Prod.fst := by simp
  rw [List.filter_map]
  conv_rhs => rw [hl,List.filter_map]
  exact congrArg _ heq

/-- The stable order of what the elements yield does not change when elements that
yield a common key stay in order. -/
theorem Rearranges.sorts_flatMap {g : α → List β} {key : β → κ} {out : List β}
    (h : Rearranges (fun a b => ∃ x ∈ g a, ∃ y ∈ g b, key x = key y) l l')
    (hs : Sorts key (l.flatMap g) out) : Sorts key (l'.flatMap g) out := by
  refine hs.congr fun k => ?_
  have hdrop : ∀ xs : List α, (xs.flatMap g).filter (key · = k) =
      (xs.filter fun a => (g a).any (key · = k)).flatMap fun a => (g a).filter (key · = k) := by
    intro xs
    induction xs with
    | nil => rfl
    | cons a xs ih =>
      rw [List.flatMap_cons,List.filter_append,ih,List.filter_cons]
      split_ifs with ha
      · rfl
      · have : (g a).filter (key · = k) = [] := by simpa using ha
        rw [this,List.nil_append]
  rw [hdrop,hdrop,h.filter_eq _ fun a _ b _ ha hb => ?_]
  obtain ⟨x,hx,hxk⟩ := List.any_eq_true.mp ha
  obtain ⟨y,hy,hyk⟩ := List.any_eq_true.mp hb
  exact ⟨x,hx,y,hy,(of_decide_eq_true hxk).trans (of_decide_eq_true hyk).symm⟩

end StableSort
end Udev
