import Mathlib.Data.List.Nodup
import Mathlib.Logic.Function.Basic

/-! Doubly linked lists that end with `NULL`. The links of all nodes of the memory are two partial functions, and a
family of lists that have no node in common is threaded through them. Each operation on a list is proved for one
direction of the links; the other direction is the same for the lists read backwards. -/
namespace Udev
namespace LinkedChains

variable {α ι κ : Type*}

def rev (chain : ι → List α) (i : ι) : List α := (chain i).reverse

def Links (next : α → Option α) (chain : ι → List α) : Prop := ∀ i xs e ys, chain i = xs ++ e::ys → next e = ys.head?

structure Apart (chain : ι → List α) : Prop where
  nodup : ∀ i, (chain i).Nodup
  disjoint : ∀ i j e, e ∈ chain i → e ∈ chain j → i = j

structure Chains (next prev : α → Option α) (chain : ι → List α) : Prop where
  apart : Apart chain
  next : Links next chain
  prev : Links prev (rev chain)

def Heads (head : ι → Option α) (chain : ι → List α) : Prop := ∀ i, head i = (chain i).head?

/-- The nodes from a place on, at most `n` of them. -/
def walk (next : α → Option α) : ℕ → Option α → Option (List α)
  | _, none => some []
  | 0, some _ => none
  | n+1, some e => (walk next n (next e)).map (e::·)

/-- The first of at most `n` nodes from a place on with a property. -/
def find (next : α → Option α) (p : α → Bool) : ℕ → Option α → Option (Option α)
  | _, none => some none
  | 0, some _ => none
  | n+1, some e => if p e then some (some e) else find next p n (next e)

section Walk

variable {next prev : α → Option α} {head : ι → Option α} {chain : ι → List α} {i : ι} {n : ℕ} {xs ys : List α}

theorem Links.walk_from (h : Links next chain) (hi : chain i = xs ++ ys) (hn : ys.length ≤ n) :
    walk next n ys.head? = some ys := by
  induction ys generalizing xs n with
  | nil =>
    cases n with
    | zero => rfl
    | succ n => rfl
  | cons e ys ih =>
    cases n with
    | zero => exact absurd hn (Nat.not_succ_le_zero _)
    | succ n =>
      have hi' : chain i = xs ++ [e] ++ ys := by rw [hi,List.append_assoc]; rfl
      rw [List.head?_cons,walk,h i xs e ys hi,ih hi' (Nat.le_of_succ_le_succ hn)]
      rfl

theorem Links.walk (h : Links next chain) (hn : (chain i).length ≤ n) : walk next n (chain i).head? = some (chain i) :=
  h.walk_from (List.nil_append _).symm hn

theorem Links.find_from {p : α → Bool} (h : Links next chain) (hi : chain i = xs ++ ys) (hn : ys.length ≤ n) :
    find next p n ys.head? = some (ys.find? p) := by
  induction ys generalizing xs n with
  | nil =>
    cases n with
    | zero => rfl
    | succ n => rfl
  | cons e ys ih =>
    cases n with
    | zero => exact absurd hn (Nat.not_succ_le_zero _)
    | succ n =>
      rw [List.head?_cons,find,List.find?_cons]
      by_cases hp : p e = true
      · rw [if_pos hp,hp]
      · rw [if_neg hp,Bool.eq_false_iff.mpr hp,h i xs e ys hi]
        have hi' : chain i = xs ++ [e] ++ ys := by rw [hi,List.append_assoc]; rfl
        exact ih hi' (Nat.le_of_succ_le_succ hn)

theorem Links.find {p : α → Bool} (h : Links next chain) (hn : (chain i).length ≤ n) :
    find next p n (chain i).head? = some ((chain i).find? p) := h.find_from (List.nil_append _).symm hn

theorem mem_rev {x : α} : x ∈ rev chain i ↔ x ∈ chain i := List.mem_reverse

theorem Apart.rev (h : Apart chain) : Apart (rev chain) where
  nodup i := List.nodup_reverse.mpr (h.nodup i)
  disjoint i j e hi hj := h.disjoint i j e (List.mem_reverse.mp hi) (List.mem_reverse.mp hj)

theorem Chains.prev_of {e : α} (h : Chains next prev chain) (hi : chain i = xs ++ e::ys) : prev e = xs.getLast? := by
  have hrev : LinkedChains.rev chain i = ys.reverse ++ e::xs.reverse := by
    rw [LinkedChains.rev,hi,List.reverse_append,List.reverse_cons,List.append_assoc]
    rfl
  rw [h.prev i _ e _ hrev,List.head?_reverse]

theorem Links.reindex (h : Links next chain) (f : κ → ι) : Links next (chain ∘ f) := fun j => h (f j)

theorem Chains.reindex (h : Chains next prev chain) {f : κ → ι} (hf : f.Injective) : Chains next prev (chain ∘ f) where
  apart := ⟨fun j => h.apart.nodup (f j),fun _ _ e hj hk => hf (h.apart.disjoint _ _ e hj hk)⟩
  next := h.next.reindex f
  prev := h.prev.reindex f

theorem Chains.nil (next prev : α → Option α) : Chains next prev fun _ : ι => [] := by
  have hnil : ∀ next : α → Option α, Links next fun _ : ι => [] :=
    fun _ _ _ _ _ h => absurd h.symm (List.append_ne_nil_of_right_ne_nil _ (List.cons_ne_nil _ _))
  exact ⟨⟨fun _ => List.nodup_nil,fun _ _ _ h => absurd h List.not_mem_nil⟩,hnil next,hnil prev⟩

theorem Links.sum_nil (h : Links next chain) : Links next (Sum.elim chain fun _ : κ => []) := by
  rintro (i | j) xs e ys hi
  · exact h i xs e ys hi
  · exact absurd hi.symm (List.append_ne_nil_of_right_ne_nil _ (List.cons_ne_nil _ _))

theorem Chains.sum_nil (h : Chains next prev chain) : Chains next prev (Sum.elim chain fun _ : κ => []) where
  apart := by
    constructor
    · rintro (i | j)
      · exact h.apart.nodup i
      · exact List.nodup_nil
    · rintro (i | i) (j | j) e hi hj
      · exact congrArg Sum.inl (h.apart.disjoint i j e hi hj)
      · exact absurd hj List.not_mem_nil
      · exact absurd hi List.not_mem_nil
      · exact absurd hi List.not_mem_nil
  next := h.next.sum_nil
  prev := by
    have hrev : LinkedChains.rev (Sum.elim chain fun _ : κ => []) = Sum.elim (LinkedChains.rev chain) fun _ => [] := by
      funext i
      cases i with
      | inl i => rfl
      | inr j => rfl
    rw [hrev]
    exact h.prev.sum_nil

theorem mem_of_last {x : α} (hi : chain i = xs ++ ys) (hx : xs.getLast? = some x) : x ∈ chain i := by
  rw [hi]
  exact List.mem_append_left _ (List.mem_of_getLast? hx)

end Walk

open Function

section Update

variable [DecidableEq ι] {next prev : α → Option α} {head : ι → Option α} {chain : ι → List α} {i : ι} {e : α} {xs ys : List α}

theorem rev_update (chain : ι → List α) (i : ι) (l : List α) : rev (update chain i l) = update (rev chain) i l.reverse := by
  funext j
  by_cases hj : j = i
  · subst hj
    rw [rev,update_self,update_self]
  · rw [rev,update_of_ne hj,update_of_ne hj,rev]

theorem mem_insert {l : List α} (hl : l.Perm (e::chain i)) {j : ι} {x : α} :
    x ∈ update chain i l j ↔ x ∈ chain j ∨ x = e ∧ j = i := by
  by_cases hj : j = i
  · subst hj
    rw [update_self,hl.mem_iff,List.mem_cons,or_comm,and_iff_left rfl]
  · rw [update_of_ne hj]
    exact (or_iff_left fun h => hj h.2).symm

theorem Apart.insert {l : List α} (h : Apart chain) (hnew : ∀ j, e ∉ chain j) (hl : l.Perm (e::chain i)) :
    Apart (update chain i l) := by
  constructor
  · intro j
    by_cases hj : j = i
    · subst hj
      rw [update_self,hl.nodup_iff,List.nodup_cons]
      exact ⟨hnew j,h.nodup j⟩
    · rw [update_of_ne hj]
      exact h.nodup j
  · intro j k x hxj hxk
    rcases (mem_insert hl).mp hxj with hxj | ⟨rfl,rfl⟩
    · rcases (mem_insert hl).mp hxk with hxk | ⟨rfl,-⟩
      · exact h.disjoint j k x hxj hxk
      · exact absurd hxj (hnew j)
    · rcases (mem_insert hl).mp hxk with hxk | ⟨-,rfl⟩
      · exact absurd hxk (hnew k)
      · rfl

theorem Apart.shrink {l : List α} (h : Apart chain) (hl : l.Sublist (chain i)) : Apart (update chain i l) := by
  have hmem : ∀ j x, x ∈ update chain i l j → x ∈ chain j := by
    intro j x hx
    by_cases hj : j = i
    · subst hj
      rw [update_self] at hx
      exact hl.subset hx
    · rwa [update_of_ne hj] at hx
  constructor
  · intro j
    by_cases hj : j = i
    · subst hj
      rw [update_self]
      exact (h.nodup j).sublist hl
    · rw [update_of_ne hj]
      exact h.nodup j
  · exact fun j k x hxj hxk => h.disjoint j k x (hmem j x hxj) (hmem k x hxk)

theorem Apart.mem_unlinked (h : Apart chain) (hi : chain i = xs ++ e::ys) {j : ι} {x : α} :
    x ∈ update chain i (xs ++ ys) j ↔ x ∈ chain j ∧ x ≠ e := by
  by_cases hj : j = i
  · subst hj
    have hnodup := h.nodup j
    rw [hi,List.nodup_middle,List.nodup_cons] at hnodup
    rw [update_self,hi,List.perm_middle.mem_iff,List.mem_cons]
    refine ⟨fun hx => ⟨Or.inr hx,fun he => hnodup.1 (he ▸ hx)⟩,fun hx => hx.1.resolve_left hx.2⟩
  · rw [update_of_ne hj]
    refine ⟨fun hx => ⟨hx,fun he => hj (h.disjoint j i x hx ?_)⟩,fun hx => hx.1⟩
    rw [hi,he]
    simp

theorem Heads.cons (h : Heads head chain) (i : ι) (e : α) : Heads (update head i (some e)) (update chain i (e::chain i)) := by
  intro j
  by_cases hj : j = i
  · subst hj
    rw [update_self,update_self,List.head?_cons]
  · rw [update_of_ne hj,update_of_ne hj]
    exact h j

theorem Heads.snoc (h : Heads head chain) (i : ι) (e : α) :
    Heads (if (chain i).getLast?.isSome then head else update head i (some e)) (update chain i (chain i ++ [e])) := by
  intro j
  by_cases hj : j = i
  · subst hj
    rw [update_self,List.head?_append,← h j]
    by_cases hnil : chain j = []
    · rw [hnil,if_neg (by simp),update_self,h j,hnil]
      rfl
    · have hlast : (chain j).getLast?.isSome = true := Option.isSome_iff_ne_none.mpr (mt List.getLast?_eq_none_iff.mp hnil)
      rw [if_pos hlast]
      cases hhead : head j with
      | some y => rfl
      | none =>
        rw [h j] at hhead
        exact absurd (List.head?_eq_none_iff.mp hhead) hnil
  · rw [update_of_ne hj,← h j]
    split_ifs
    · rfl
    · rw [update_of_ne hj]

theorem Heads.unlink (h : Heads head chain) (hi : chain i = xs ++ e::ys) :
    Heads (if xs.getLast?.isSome then head else update head i ys.head?) (update chain i (xs ++ ys)) := by
  intro j
  by_cases hj : j = i
  · subst hj
    rw [update_self,List.head?_append]
    rcases List.eq_nil_or_concat xs with rfl | ⟨us,u,rfl⟩
    · rw [if_neg (by simp),update_self]
      rfl
    · rw [List.concat_eq_append,if_pos (by simp),h j,hi,List.concat_eq_append]
      cases us with
      | nil => rfl
      | cons v us => rfl
  · rw [update_of_ne hj,← h j]
    split_ifs
    · rfl
    · rw [update_of_ne hj]

theorem Links.cons (h : Links next chain) (hnew : ∀ j, e ∉ chain j) (i : ι) [DecidableEq α] :
    Links (update next e (chain i).head?) (update chain i (e::chain i)) := by
  have hkeep : ∀ j us x vs, chain j = us ++ x::vs → update next e (chain i).head? x = vs.head? := by
    intro j us x vs hx
    have hne : x ≠ e := by
      rintro rfl
      exact hnew j (by rw [hx]; simp)
    rw [update_of_ne hne]
    exact h j us x vs hx
  intro j us x vs hx
  by_cases hj : j = i
  · subst hj
    rw [update_self] at hx
    cases us with
    | nil =>
      obtain ⟨rfl,rfl⟩ := List.cons.inj hx
      exact update_self _ _ _
    | cons u us => exact hkeep j us x vs (List.cons.inj hx).2
  · rw [update_of_ne hj] at hx
    exact hkeep j us x vs hx

end Update

section SetAt

variable [DecidableEq α] [DecidableEq ι] {next prev : α → Option α} {head : ι → Option α} {chain : ι → List α} {i : ι} {e : α}
  {xs ys : List α}

/-- `if (p) p->field = x;` -/
def setAt (field : α → Option α) (p x : Option α) : α → Option α := fun a => if p = some a then x else field a

theorem setAt_self (field : α → Option α) (p : Option α) (e : α) : setAt field p (field e) e = field e := ite_self _

theorem Links.snoc (h : Links next chain) (hapart : Apart chain) (hnew : ∀ j, e ∉ chain j) (i : ι) :
    Links (setAt (update next e none) (chain i).getLast? (some e)) (update chain i (chain i ++ [e])) := by
  have hother : ∀ j us x vs, chain j = us ++ x::vs → update next e none x = vs.head? := by
    intro j us x vs hx
    have hne : x ≠ e := by
      rintro rfl
      exact hnew j (by rw [hx]; simp)
    rw [update_of_ne hne]
    exact h j us x vs hx
  intro j us x vs hx
  rw [setAt]
  by_cases hj : j = i
  · subst hj
    rw [update_self] at hx
    rcases List.eq_nil_or_concat vs with rfl | ⟨ws,w,rfl⟩
    · obtain ⟨-,hxe⟩ := List.append_inj' hx rfl
      obtain rfl := (List.cons.inj hxe).1
      rw [if_neg fun hlast => hnew j (List.mem_of_getLast? hlast),update_self]
      rfl
    · rw [List.concat_eq_append,← List.cons_append,← List.append_assoc] at hx
      obtain ⟨hinit,hwe⟩ := List.append_inj' hx rfl
      obtain rfl := (List.cons.inj hwe).1
      rw [List.concat_eq_append]
      cases ws with
      | nil =>
        rw [hinit,if_pos List.getLast?_concat]
        rfl
      | cons v ws =>
        have hnodup := hapart.nodup j
        rw [hinit,List.nodup_middle,List.nodup_cons] at hnodup
        rw [if_neg ?_,hother j us x _ hinit]
        · rfl
        · intro hlast
          rw [hinit,List.append_cons,List.getLast?_append_of_ne_nil _ (List.cons_ne_nil _ _)] at hlast
          exact hnodup.1 (List.mem_append_right _ (List.mem_of_getLast? hlast))
  · rw [update_of_ne hj] at hx
    rw [if_neg ?_]
    · exact hother j us x vs hx
    · intro hlast
      exact hj (hapart.disjoint j i x (by rw [hx]; simp) (List.mem_of_getLast? hlast))

theorem Links.unlink (h : Links next chain) (hapart : Apart chain) (hi : chain i = xs ++ e::ys) :
    Links (setAt next xs.getLast? ys.head?) (update chain i (xs ++ ys)) := by
  intro j us x vs hx
  rw [setAt]
  by_cases hj : j = i
  · subst hj
    rw [update_self] at hx
    have hnodup := hapart.nodup j
    rw [hi,List.nodup_append] at hnodup
    obtain ⟨hxs,-,hdisjoint⟩ := hnodup
    have hbehind : ∀ ws, ys = ws ++ x::vs → (if xs.getLast? = some x then ys.head? else next x) = vs.head? := by
      intro ws hys
      rw [if_neg fun hlast => hdisjoint x (List.mem_of_getLast? hlast) x (by rw [hys]; simp) rfl]
      exact h j (xs ++ e::ws) x vs (by rw [hi,hys,List.append_assoc]; rfl)
    rcases List.append_eq_append_iff.mp hx with ⟨ws,-,hys⟩ | ⟨ws,hus,hvs⟩
    · exact hbehind ws hys
    · cases ws with
      | nil => exact hbehind [] hvs.symm
      | cons w ws =>
        obtain ⟨rfl,rfl⟩ := List.cons.inj hvs
        subst hus
        cases ws with
        | nil =>
          rw [if_pos List.getLast?_concat]
          rfl
        | cons v ws =>
          rw [List.nodup_middle,List.nodup_cons] at hxs
          rw [if_neg ?_,h j us x (v::ws ++ e::ys) (by rw [hi,List.append_assoc]; rfl)]
          · rfl
          · intro hlast
            rw [List.append_cons,List.getLast?_append_of_ne_nil _ (List.cons_ne_nil _ _)] at hlast
            exact hxs.1 (List.mem_append_right _ (List.mem_of_getLast? hlast))
  · rw [update_of_ne hj] at hx
    rw [if_neg ?_]
    · exact h j us x vs hx
    · intro hlast
      exact hj (hapart.disjoint j i x (by rw [hx]; simp) (mem_of_last hi hlast))

theorem Chains.pushFront (h : Chains next prev chain) (hnew : ∀ j, e ∉ chain j) (i : ι) :
    Chains (update next e (chain i).head?) (setAt (update prev e none) (chain i).head? (some e))
      (update chain i (e::chain i)) where
  apart := h.apart.insert hnew (List.Perm.refl _)
  next := h.next.cons hnew i
  prev := by
    have hback := h.prev.snoc h.apart.rev (fun j => mem_rev.not.mpr (hnew j)) i
    rw [LinkedChains.rev,List.getLast?_reverse] at hback
    rw [rev_update,List.reverse_cons]
    exact hback

theorem Chains.pushBack (h : Chains next prev chain) (hnew : ∀ j, e ∉ chain j) (i : ι) :
    Chains (setAt (update next e none) (chain i).getLast? (some e)) (update prev e (chain i).getLast?)
      (update chain i (chain i ++ [e])) where
  apart := h.apart.insert hnew (List.perm_append_singleton _ _)
  next := h.next.snoc h.apart hnew i
  prev := by
    have hback := h.prev.cons (fun j => mem_rev.not.mpr (hnew j)) i
    rw [LinkedChains.rev,List.head?_reverse] at hback
    rw [rev_update,List.reverse_append]
    exact hback

theorem Chains.unlink (h : Chains next prev chain) (hi : chain i = xs ++ e::ys) :
    Chains (setAt next xs.getLast? ys.head?) (setAt prev ys.head? xs.getLast?) (update chain i (xs ++ ys)) where
  apart := h.apart.shrink (by rw [hi]; exact (List.sublist_cons_self e ys).append_left xs)
  next := h.next.unlink h.apart hi
  prev := by
    have hrev : LinkedChains.rev chain i = ys.reverse ++ e::xs.reverse := by
      rw [LinkedChains.rev,hi,List.reverse_append,List.reverse_cons,List.append_assoc]
      rfl
    have hback := h.prev.unlink h.apart.rev hrev
    rw [List.getLast?_reverse,List.head?_reverse] at hback
    rw [rev_update,List.reverse_append]
    exact hback

end SetAt

end LinkedChains
end Udev
