import Mathlib.Data.List.Chain
import Mathlib.Data.List.Nodup
import Mathlib.Logic.Function.Basic

/-! Doubly linked rings: nodes with links to the next and the previous node, closed by a
head node that is in no list. A ring represents the list of its other nodes. -/
namespace Udev

structure Links (α : Type*) where
  next : α → α
  prev : α → α

namespace Links

variable {α : Type*} {k k' : Links α}

def Linked (k : Links α) (a b : α) : Prop := k.next a = b ∧ k.prev b = a

theorem chain_congr {l : List α} (h : l.IsChain (Linked k)) (hnext : ∀ x ∈ l.dropLast, k'.next x = k.next x)
    (hprev : ∀ x ∈ l.tail, k'.prev x = k.prev x) : l.IsChain (Linked k') := by
  induction l with
  | nil => exact .nil
  | cons a l ih =>
    cases l with
    | nil => exact .singleton a
    | cons b l =>
      obtain ⟨hab,hl⟩ := List.isChain_cons_cons.mp h
      have hlink : Linked k' a b :=
        ⟨(hnext a (by simp)).trans hab.1,(hprev b (by simp)).trans hab.2⟩
      refine List.isChain_cons_cons.mpr ⟨hlink,ih hl ?_ ?_⟩
      · intro x hx
        exact hnext x (by simpa using Or.inr hx)
      · intro x hx
        exact hprev x (List.mem_cons_of_mem _ hx)

structure Ring (k : Links α) (head : α) (l : List α) : Prop where
  chain : (head::(l ++ [head])).IsChain (Linked k)
  nodup : (head::l).Nodup

variable {head x new : α} {l l' : List α}

def before (head : α) (l : List α) : α := l.getLast?.getD head

def after (head : α) (l : List α) : α := l.head?.getD head

theorem exists_before (head : α) (l : List α) : ∃ a, head::l = a ++ [before head l] := by
  induction l using List.reverseRecOn with
  | nil => exact ⟨[],rfl⟩
  | append_singleton l x => exact ⟨head::l,by simp [before]⟩

theorem exists_after (head : α) (l : List α) : ∃ b, l ++ [head] = after head l::b := by
  cases l with
  | nil => exact ⟨[],rfl⟩
  | cons x l => exact ⟨l ++ [head],rfl⟩

theorem Ring.linked (h : Ring k head (l ++ l')) : Linked k (before head l) (after head l') := by
  obtain ⟨a,ha⟩ := exists_before head l
  obtain ⟨b,hb⟩ := exists_after head l'
  have hchain := h.chain
  rw [List.append_assoc,hb,← List.cons_append,ha,List.append_assoc,List.singleton_append] at hchain
  exact (List.isChain_append_cons_cons.mp hchain).2.1

theorem Ring.next_node (h : Ring k head (l ++ x::l')) : k.next x = after head l' := by
  have hsplit : Ring k head ((l ++ [x]) ++ l') := by simpa using h
  have hlinked := hsplit.linked
  rw [before,List.getLast?_concat] at hlinked
  exact hlinked.1

theorem Ring.next_head (h : Ring k head l) : k.next head = after head l :=
  (Ring.linked (l := []) h).1

theorem Ring.prev_node (h : Ring k head (l ++ x::l')) : k.prev x = before head l := h.linked.2

section Update

variable [DecidableEq α]

def insertBetween (k : Links α) (new prev next : α) : Links α :=
  let k₁ := { k with prev := Function.update k.prev next new }
  let k₂ := { k₁ with next := Function.update k₁.next new next }
  let k₃ := { k₂ with prev := Function.update k₂.prev new prev }
  { k₃ with next := Function.update k₃.next prev new }

/-- Take a node out; its own links stay as they are. -/
def remove (k : Links α) (x : α) : Links α :=
  let k₁ := { k with prev := Function.update k.prev (k.next x) (k.prev x) }
  { k₁ with next := Function.update k₁.next (k.prev x) (k.next x) }

theorem insertBetween_next (k : Links α) (new prev next y : α) :
    (insertBetween k new prev next).next y = if y = prev then new else if y = new then next else k.next y := by
  simp only [insertBetween,Function.update_apply]

theorem insertBetween_prev (k : Links α) (new prev next y : α) :
    (insertBetween k new prev next).prev y = if y = new then prev else if y = next then new else k.prev y := by
  simp only [insertBetween,Function.update_apply]

theorem remove_next (k : Links α) (x y : α) :
    (remove k x).next y = if y = k.prev x then k.next x else k.next y := by
  simp only [remove,Function.update_apply]

theorem remove_prev (k : Links α) (x y : α) :
    (remove k x).prev y = if y = k.next x then k.prev x else k.prev y := by
  simp only [remove,Function.update_apply]

end Update

/-- The nodes up to a place stay a chain when the link from the last of them changes. -/
theorem Ring.chain_before (h : Ring k head (l ++ l'))
    (hnext : ∀ y ∈ head::l, y ≠ before head l → k'.next y = k.next y)
    (hprev : ∀ y ∈ l, k'.prev y = k.prev y) : (head::l).IsChain (Linked k') := by
  obtain ⟨a,ha⟩ := exists_before head l
  have hchain := h.chain
  rw [List.append_assoc,← List.cons_append] at hchain
  have hnodup : (a ++ [before head l]).Nodup := by
    rw [← ha]
    exact h.nodup.sublist (by simp)
  refine chain_congr hchain.left_of_append ?_ hprev
  intro y hy
  rw [ha,List.dropLast_concat] at hy
  refine hnext y (ha ▸ List.mem_append_left _ hy) ?_
  rintro rfl
  exact (List.nodup_append.mp hnodup).2.2 _ hy _ (by simp) rfl

/-- The nodes from a place on stay a chain when the link to the first of them changes. -/
theorem Ring.chain_after (h : Ring k head (l ++ l')) (hnext : ∀ y ∈ l', k'.next y = k.next y)
    (hprev : ∀ y ∈ l' ++ [head], y ≠ after head l' → k'.prev y = k.prev y) :
    (l' ++ [head]).IsChain (Linked k') := by
  obtain ⟨b,hb⟩ := exists_after head l'
  have hchain := h.chain
  rw [List.append_assoc,← List.cons_append] at hchain
  have hnodup : (l' ++ [head]).Nodup := by
    have hperm : (head::(l ++ l')).Nodup ↔ (l ++ (l' ++ [head])).Nodup := by
      rw [← List.append_assoc]
      exact (List.perm_append_singleton _ _).symm.nodup_iff
    exact (hperm.mp h.nodup).sublist (by simp)
  refine chain_congr hchain.right_of_append ?_ ?_
  · intro y hy
    rw [List.dropLast_concat] at hy
    exact hnext y hy
  · intro y hy
    rw [hb,List.tail_cons] at hy
    refine hprev y (hb ▸ List.mem_cons_of_mem _ hy) ?_
    rintro rfl
    rw [hb] at hnodup
    exact (List.nodup_cons.mp hnodup).1 hy

theorem chain_join (hleft : (head::l).IsChain (Linked k)) (hright : (l' ++ [head]).IsChain (Linked k))
    (hlink : Linked k (before head l) (after head l')) : (head::((l ++ l') ++ [head])).IsChain (Linked k) := by
  obtain ⟨a,ha⟩ := exists_before head l
  obtain ⟨b,hb⟩ := exists_after head l'
  rw [List.append_assoc,← List.cons_append]
  refine hleft.append hright ?_
  rw [ha,hb]
  simpa using hlink

theorem before_mem (head : α) (l : List α) : before head l ∈ head::l := by
  obtain ⟨a,ha⟩ := exists_before head l
  rw [ha]
  simp

theorem after_mem (head : α) (l : List α) : after head l ∈ l ++ [head] := by
  obtain ⟨b,hb⟩ := exists_after head l
  rw [hb]
  exact List.mem_cons_self

theorem after_ne (hnodup : (head::(l ++ l')).Nodup) {y : α} (hy : y ∈ l) : y ≠ after head l' := by
  rintro rfl
  obtain ⟨hhead,hl⟩ := List.nodup_cons.mp hnodup
  rcases List.mem_append.mp (after_mem head l') with hmem | hmem
  · exact (List.nodup_append.mp hl).2.2 _ hy _ hmem rfl
  · exact hhead (List.mem_singleton.mp hmem ▸ List.mem_append_left _ hy)

theorem before_ne (hnodup : (head::(l ++ l')).Nodup) {y : α} (hy : y ∈ l') : y ≠ before head l := by
  rintro rfl
  obtain ⟨hhead,hl⟩ := List.nodup_cons.mp hnodup
  rcases List.mem_cons.mp (before_mem head l) with hmem | hmem
  · exact hhead (hmem ▸ List.mem_append_right _ hy)
  · exact (List.nodup_append.mp hl).2.2 _ hmem _ hy rfl

theorem mem_of_before {y : α} (hy : y ∈ head::l) (l' : List α) : y ∈ head::(l ++ l') := by
  rw [← List.cons_append]
  exact List.mem_append_left _ hy

theorem mem_of_after {y : α} (hy : y ∈ l' ++ [head]) (l : List α) : y ∈ head::(l ++ l') := by
  rcases List.mem_append.mp hy with hmem | hmem
  · exact List.mem_cons_of_mem _ (List.mem_append_right _ hmem)
  · exact List.mem_cons.mpr (Or.inl (List.mem_singleton.mp hmem))

variable [DecidableEq α]

theorem Ring.insertBetween (h : Ring k head (l ++ l')) (hnew : new ∉ head::(l ++ l')) :
    Ring (insertBetween k new (before head l) (after head l')) head (l ++ new::l') := by
  have hne : ∀ y ∈ head::(l ++ l'), y ≠ new := by
    rintro y hy rfl
    exact hnew hy
  have hbefore : before head l ≠ new := hne _ (mem_of_before (before_mem head l) l')
  have hafter : after head l' ≠ new := hne _ (mem_of_after (after_mem head l') l)
  have hleft : (head::l).IsChain (Linked (Links.insertBetween k new (before head l) (after head l'))) := by
    refine h.chain_before ?_ ?_
    · intro y hy hy'
      rw [insertBetween_next,if_neg hy',if_neg (hne y (mem_of_before hy l'))]
    · intro y hy
      rw [insertBetween_prev,if_neg (hne y (mem_of_before (List.mem_cons_of_mem _ hy) l')),
        if_neg (after_ne h.nodup hy)]
  have hright : (l' ++ [head]).IsChain (Linked (Links.insertBetween k new (before head l) (after head l'))) := by
    refine h.chain_after ?_ ?_
    · intro y hy
      rw [insertBetween_next,if_neg (before_ne h.nodup hy),
        if_neg (hne y (mem_of_after (List.mem_append_left _ hy) l))]
    · intro y hy hy'
      rw [insertBetween_prev,if_neg (hne y (mem_of_after hy l)),if_neg hy']
  have hcons : ((new::l') ++ [head]).IsChain
      (Linked (Links.insertBetween k new (before head l) (after head l'))) := by
    obtain ⟨b,hb⟩ := exists_after head l'
    refine hright.cons ?_
    intro y hy
    rw [hb] at hy
    obtain rfl : after head l' = y := by simpa using hy
    refine ⟨?_,?_⟩
    · rw [insertBetween_next,if_neg hbefore.symm,if_pos rfl]
    · rw [insertBetween_prev,if_neg hafter,if_pos rfl]
  refine ⟨chain_join hleft hcons ⟨?_,?_⟩,?_⟩
  · rw [insertBetween_next,if_pos rfl]
    rfl
  · rw [insertBetween_prev]
    exact if_pos rfl
  · rw [← List.cons_append,List.nodup_middle]
    exact List.nodup_cons.mpr ⟨by simpa using hnew,by simpa using h.nodup⟩

theorem Ring.remove (h : Ring k head (l ++ x::l')) : Ring (remove k x) head (l ++ l') := by
  have hnext := h.next_node
  have hprev := h.prev_node
  have hsplit : Ring k head ((l ++ [x]) ++ l') := by simpa using h
  have hnodup : (head::(l ++ l')).Nodup := h.nodup.sublist (by simp)
  have hleft : (head::l).IsChain (Linked (Links.remove k x)) := by
    refine h.chain_before ?_ ?_
    · intro y _ hy'
      rw [remove_next,hprev,if_neg hy']
    · intro y hy
      rw [remove_prev,hnext,if_neg (after_ne hnodup hy)]
  have hright : (l' ++ [head]).IsChain (Linked (Links.remove k x)) := by
    refine hsplit.chain_after ?_ ?_
    · intro y hy
      rw [remove_next,hprev,if_neg (before_ne hnodup hy)]
    · intro y _ hy'
      rw [remove_prev,hnext,if_neg hy']
  refine ⟨chain_join hleft hright ⟨?_,?_⟩,hnodup⟩
  · rw [remove_next,hprev,hnext,if_pos rfl]
  · rw [remove_prev,hprev,hnext,if_pos rfl]

end Links
end Udev
