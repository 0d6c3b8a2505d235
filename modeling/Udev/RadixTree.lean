import Udev.SortedMap
import Mathlib.Data.List.Infix

/-! Radix trees over an arbitrary alphabet: a node has a prefix, a value and children that are
sorted by the first letter of what follows the prefix. A string is found by the prefixes and
the letters on its way. Canonical trees with the same strings are equal. -/
namespace Udev
namespace RadixTree

inductive Tree (κ δ : Type) where
  | node (data : δ) (children : List (κ × Tree κ δ))

namespace Tree

variable {κ δ ε : Type}

def data : Tree κ δ → δ
  | node data _ => data

def children : Tree κ δ → List (κ × Tree κ δ)
  | node _ children => children

@[simp] theorem data_node (data : δ) (children : List (κ × Tree κ δ)) : (node data children).data = data := rfl

@[simp] theorem children_node (data : δ) (children : List (κ × Tree κ δ)) :
    (node data children).children = children := rfl

/-- What holds of a node when it holds of its children holds of every tree. -/
theorem induction {P : Tree κ δ → Prop}
    (h : ∀ data children, (∀ e ∈ children, P e.2) → P (node data children)) : ∀ t, P t
  | node data children => h data children fun e _ => induction h e.2
termination_by t => sizeOf t
decreasing_by
  have hlt := List.sizeOf_lt_of_mem ‹e ∈ children›
  cases e
  simp only [Prod.mk.sizeOf_spec,node.sizeOf_spec] at hlt ⊢
  omega

inductive Forall (P : δ → List (κ × Tree κ δ) → Prop) : Tree κ δ → Prop
  | node {data : δ} {children : List (κ × Tree κ δ)} (h : P data children)
      (hchildren : ∀ e ∈ children, Forall P e.2) : Forall P (node data children)

theorem Forall.imp {P Q : δ → List (κ × Tree κ δ) → Prop} (hPQ : ∀ data children, P data children → Q data children)
    {t : Tree κ δ} (h : Forall P t) : Forall Q t := by
  induction h with
  | node h _ ih => exact .node (hPQ _ _ h) ih

theorem Forall.and {P Q : δ → List (κ × Tree κ δ) → Prop} {t : Tree κ δ} (hP : Forall P t) (hQ : Forall Q t) :
    Forall (fun data ch => P data ch ∧ Q data ch) t := by
  induction hP with
  | node h _ ih =>
    cases hQ with
    | node h' hchildren => exact .node ⟨h,h'⟩ fun e he => ih e he (hchildren e he)

mutual

def map (f : δ → ε) : Tree κ δ → Tree κ ε
  | node data children => node (f data) (mapChildren f children)

def mapChildren (f : δ → ε) : List (κ × Tree κ δ) → List (κ × Tree κ ε)
  | [] => []
  | (k,t)::l => (k,t.map f)::mapChildren f l

end

theorem mapChildren_eq (f : δ → ε) (l : List (κ × Tree κ δ)) :
    mapChildren f l = SortedMap.mapValues (map f) l := by
  induction l with
  | nil => rfl
  | cons e l ih => rw [mapChildren,ih]; rfl

@[simp] theorem map_node (f : δ → ε) (data : δ) (children : List (κ × Tree κ δ)) :
    (node data children).map f = node (f data) (SortedMap.mapValues (map f) children) := by
  rw [map,mapChildren_eq]

theorem forall_of_map {f : δ → ε} {P : ε → List (κ × Tree κ ε) → Prop} {t : Tree κ δ} (h : Forall P (t.map f)) :
    Forall (fun data ch => P (f data) (SortedMap.mapValues (map f) ch)) t := by
  induction t using induction with
  | h data children ih =>
    rw [map_node] at h
    cases h with
    | node hnode hchildren => exact .node hnode fun e he => ih e he (hchildren _ (List.mem_map_of_mem he))

theorem map_congr {f g : δ → ε} {P : δ → List (κ × Tree κ δ) → Prop} (hfg : ∀ data ch, P data ch → f data = g data)
    {t : Tree κ δ} (h : Forall P t) : t.map f = t.map g := by
  induction h with
  | node h _ ih =>
    rw [map_node,map_node,hfg _ _ h,SortedMap.mapValues,SortedMap.mapValues]
    refine congrArg (node _) (List.map_congr_left ?_)
    intro e he
    rw [ih e he]

end Tree

abbrev Radix (α β : Type) := Tree α (List α × β)

section Insert

variable {α β : Type} [DecidableEq α] [LT α] [DecidableLT α] (same : α → α → Bool) (empty : β)

def common : List α → List α → ℕ
  | a::as, b::bs => if same a b then common as bs+1 else 0
  | _, _ => 0

/-- A node with the first letters of the prefix, and the node as its only child. -/
def split (p : ℕ) : Radix α β → Radix α β
  | .node (pre,v) ch =>
    match pre.drop p with
    | [] => .node (pre,v) ch
    | c::rest => .node (pre.take p,empty) [(c,.node (rest,v) ch)]

def insert (f : β → β) (t : Radix α β) (s : List α) : Radix α β :=
  match split empty (common same t.data.1 s) t, _h : s.drop (common same t.data.1 s) with
  | .node (pre,v) ch, [] => .node (pre,f v) ch
  | .node data ch, c::rest =>
    match SortedMap.get ch c with
    | none => .node data (SortedMap.insert c (.node (rest,f empty) []) ch)
    | some child => .node data (SortedMap.set ch c (insert f child rest))
termination_by s.length
decreasing_by
  have hlen := congrArg List.length _h
  rw [List.length_drop,List.length_cons] at hlen
  omega

omit [LT α] [DecidableLT α] in
def find : Radix α β → List α → β
  | .node (pre,v) ch, s =>
    if pre <+: s then
      match _h : s.drop pre.length with
      | [] => v
      | c::rest =>
        match SortedMap.get ch c with
        | none => empty
        | some child => find child rest
    else empty
termination_by _ s => s.length
decreasing_by
  have hlen := congrArg List.length _h
  rw [List.length_drop,List.length_cons] at hlen
  omega

end Insert

section Find

variable {α β : Type} [DecidableEq α] {empty : β} {pre : List α} {v : β} {ch : List (α × Radix α β)}

theorem find_self : find empty (.node (pre,v) ch) pre = v := by
  rw [find,if_pos (List.prefix_refl _)]
  split
  · rfl
  · next h => simp at h

theorem find_child (c : α) (rest : List α) :
    find empty (.node (pre,v) ch) (pre ++ c::rest) = (SortedMap.get ch c).elim empty (find empty · rest) := by
  rw [find,if_pos (List.prefix_append _ _)]
  split
  · next h => simp at h
  · next h =>
    rw [List.drop_left] at h
    cases h
    cases SortedMap.get ch c <;> rfl

theorem find_other {s : List α} (h : ¬pre <+: s) : find empty (.node (pre,v) ch) s = empty := by
  rw [find,if_neg h]

theorem prefix_cases (pre s : List α) : s = pre ∨ (∃ c rest, s = pre ++ c::rest) ∨ ¬pre <+: s := by
  by_cases h : pre <+: s
  · obtain ⟨t,rfl⟩ := h
    cases t with
    | nil => exact Or.inl (List.append_nil _)
    | cons c rest => exact Or.inr (Or.inl ⟨c,rest,rfl⟩)
  · exact Or.inr (Or.inr h)

theorem find_split (p : ℕ) (t : Radix α β) (s : List α) : find empty (split empty p t) s = find empty t s := by
  obtain ⟨⟨pre,v⟩,ch⟩ := t
  rw [split]
  split
  · rfl
  · next c rest h =>
    obtain ⟨q,hq⟩ : ∃ q, q = pre.take p := ⟨_,rfl⟩
    have hpre : pre = q ++ c::rest := by rw [hq,← h,List.take_append_drop]
    rw [← hq,hpre]
    rcases prefix_cases q s with rfl | ⟨c',rest',rfl⟩ | hs
    · have hlong : ¬s ++ c::rest <+: s := by
        intro hle
        have hlen := hle.length_le
        rw [List.length_append,List.length_cons] at hlen
        omega
      rw [find_self,find_other hlong]
    · rw [find_child,SortedMap.get_cons]
      by_cases hc : c = c'
      · subst hc
        rw [if_pos rfl,Option.elim_some]
        rcases prefix_cases rest rest' with rfl | ⟨d,r,rfl⟩ | hr
        · rw [find_self,find_self]
        · have hs : q ++ c::(rest ++ d::r) = q ++ c::rest ++ d::r := by simp
          rw [hs,find_child,find_child]
        · have hother : ¬q ++ c::rest <+: q ++ c::rest' := by
            rw [List.prefix_append_right_inj]
            simpa using hr
          rw [find_other hr,find_other hother]
      · have hother : ¬q ++ c::rest <+: q ++ c'::rest' := by
          rw [List.prefix_append_right_inj]
          simp [hc]
        rw [if_neg hc,SortedMap.get_nil,Option.elim_none,find_other hother]
    · rw [find_other hs,find_other fun hle => hs ((List.prefix_append q _).trans hle)]

end Find

section Inserted

variable {α β : Type} [DecidableEq α] [LT α] [DecidableLT α] {same : α → α → Bool} {empty : β}

/-- What an insertion does: the node is split where the string leaves its prefix, and then
the string ends there, goes on with a new child or goes on in a child that is there. -/
inductive Inserted (same : α → α → Bool) (empty : β) (f : β → β) : Radix α β → List α → Radix α β → Prop
  | here {t : Radix α β} {pre : List α} {v : β} {ch : List (α × Radix α β)}
      (hsplit : split empty (common same t.data.1 pre) t = .node (pre,v) ch) :
      Inserted same empty f t pre (.node (pre,f v) ch)
  | new {t : Radix α β} {pre rest : List α} {v : β} {ch : List (α × Radix α β)} {c : α}
      (hsplit : split empty (common same t.data.1 (pre ++ c::rest)) t = .node (pre,v) ch)
      (hget : SortedMap.get ch c = none) :
      Inserted same empty f t (pre ++ c::rest) (.node (pre,v) (SortedMap.insert c (.node (rest,f empty) []) ch))
  | child {t child child' : Radix α β} {pre rest : List α} {v : β} {ch : List (α × Radix α β)} {c : α}
      (hsplit : split empty (common same t.data.1 (pre ++ c::rest)) t = .node (pre,v) ch)
      (hget : SortedMap.get ch c = some child) (hchild : Inserted same empty f child rest child') :
      Inserted same empty f t (pre ++ c::rest) (.node (pre,v) (SortedMap.set ch c child'))

omit [DecidableEq α] [LT α] [DecidableLT α] in
theorem take_common (hsame : ∀ a b, same a b = true → a = b) (pre s : List α) :
    pre.take (common same pre s) = s.take (common same pre s) := by
  induction pre generalizing s with
  | nil => cases s <;> simp [common]
  | cons a pre ih =>
    cases s with
    | nil => simp [common]
    | cons b s =>
      rw [common]
      split_ifs with h
      · rw [List.take_succ_cons,List.take_succ_cons,ih,hsame a b h]
      · simp

omit [DecidableEq α] [LT α] [DecidableLT α] in
theorem data_split (p : ℕ) (t : Radix α β) : (split empty p t).data.1 = t.data.1.take p := by
  obtain ⟨⟨pre,v⟩,ch⟩ := t
  rw [split]
  split
  · next h => exact (List.take_of_length_le (List.drop_eq_nil_iff.mp h)).symm
  · rfl

section Equations

variable {f : β → β} {t : Radix α β} {s pre rest : List α} {v : β} {ch : List (α × Radix α β)} {c : α}
  (hsplit : split empty (common same t.data.1 s) t = .node (pre,v) ch)

include hsplit

theorem insert_here (hdrop : s.drop (common same t.data.1 s) = []) :
    insert same empty f t s = .node (pre,f v) ch := by
  rw [insert]
  split
  · next h _ =>
    rw [hsplit] at h
    cases h
    rfl
  · next h =>
    rw [hdrop] at h
    cases h

theorem insert_new (hdrop : s.drop (common same t.data.1 s) = c::rest) (hget : SortedMap.get ch c = none) :
    insert same empty f t s = .node (pre,v) (SortedMap.insert c (.node (rest,f empty) []) ch) := by
  rw [insert]
  split
  · next h =>
    rw [hdrop] at h
    cases h
  · next h hdrop' =>
    rw [hsplit] at h
    rw [hdrop] at hdrop'
    cases h
    cases hdrop'
    rw [hget]

theorem insert_child {child : Radix α β} (hdrop : s.drop (common same t.data.1 s) = c::rest)
    (hget : SortedMap.get ch c = some child) :
    insert same empty f t s = .node (pre,v) (SortedMap.set ch c (insert same empty f child rest)) := by
  rw [insert]
  split
  · next h =>
    rw [hdrop] at h
    cases h
  · next h hdrop' =>
    rw [hsplit] at h
    rw [hdrop] at hdrop'
    cases h
    cases hdrop'
    rw [hget]

end Equations

theorem inserted (hsame : ∀ a b, same a b = true → a = b) (f : β → β) (t : Radix α β) (s : List α) :
    Inserted same empty f t s (insert same empty f t s) := by
  induction hn : s.length using Nat.strong_induction_on generalizing t s with
  | _ n ih =>
    obtain ⟨⟨⟨pre,v⟩,ch⟩,hsplit⟩ : ∃ u, split empty (common same t.data.1 s) t = u := ⟨_,rfl⟩
    have hpre : pre = s.take (common same t.data.1 s) := by
      rw [← take_common hsame,← data_split,hsplit]
      rfl
    have hs : s = pre ++ s.drop (common same t.data.1 s) := by rw [hpre,List.take_append_drop]
    cases hdrop : s.drop (common same t.data.1 s) with
    | nil =>
      rw [insert_here hsplit hdrop]
      rw [hdrop,List.append_nil] at hs
      subst hs
      exact .here hsplit
    | cons c rest =>
      rw [hdrop] at hs
      have hlen : rest.length < n := by
        rw [← hn,hs,List.length_append,List.length_cons]
        omega
      cases hget : SortedMap.get ch c with
      | none =>
        rw [insert_new hsplit hdrop hget]
        subst hs
        exact .new hsplit hget
      | some child =>
        rw [insert_child hsplit hdrop hget]
        subst hs
        exact .child hsplit hget (ih rest.length hlen child rest rfl)

theorem Inserted.find {f : β → β} {t t' : Radix α β} {s : List α} (h : Inserted same empty f t s t') (s' : List α) :
    find empty t' s' = if s' = s then f (find empty t s) else find empty t s' := by
  induction h generalizing s' with
  | here hsplit =>
    rename_i t pre v ch
    rw [← find_split _ t pre,← find_split _ t s',hsplit,find_self]
    rcases prefix_cases pre s' with rfl | ⟨c,rest,rfl⟩ | hs
    · rw [if_pos rfl,find_self]
    · rw [if_neg (by simp),find_child,find_child]
    · rw [if_neg (by rintro rfl; exact hs (List.prefix_refl _)),find_other hs,find_other hs]
  | new hsplit hget =>
    rename_i t pre rest v ch c
    rw [← find_split _ t (pre ++ c::rest),← find_split _ t s',hsplit,find_child,hget,Option.elim_none]
    rcases prefix_cases pre s' with rfl | ⟨c',rest',rfl⟩ | hs
    · rw [if_neg (by simp),find_self,find_self]
    · rw [find_child,find_child,SortedMap.get_insert hget]
      by_cases hc : c = c'
      · subst hc
        rw [if_pos rfl,Option.elim_some,hget,Option.elim_none]
        by_cases hrest : rest' = rest
        · subst hrest
          rw [if_pos rfl,find_self]
        · rw [if_neg (by simpa using hrest)]
          rcases prefix_cases rest rest' with heq | ⟨d,r,rfl⟩ | hr
          · exact absurd heq hrest
          · rw [find_child,SortedMap.get_nil,Option.elim_none]
          · rw [find_other hr]
      · rw [if_neg hc,if_neg (by simp [Ne.symm hc])]
    · rw [if_neg (by rintro rfl; exact hs (List.prefix_append _ _)),find_other hs,find_other hs]
  | child hsplit hget hchild ih =>
    rename_i t child child' pre rest v ch c
    rw [← find_split _ t (pre ++ c::rest),← find_split _ t s',hsplit,find_child,hget,Option.elim_some]
    rcases prefix_cases pre s' with rfl | ⟨c',rest',rfl⟩ | hs
    · rw [if_neg (by simp),find_self,find_self]
    · rw [find_child,find_child,SortedMap.get_set (by rw [hget]; rfl)]
      by_cases hc : c = c'
      · subst hc
        rw [if_pos rfl,Option.elim_some,hget,Option.elim_some,ih]
        by_cases hrest : rest' = rest
        · rw [if_pos hrest,if_pos (by rw [hrest])]
        · rw [if_neg hrest,if_neg (by simpa using hrest)]
      · rw [if_neg hc,if_neg (by simp [Ne.symm hc])]
    · rw [if_neg (by rintro rfl; exact hs (List.prefix_append _ _)),find_other hs,find_other hs]

end Inserted

section Ordered

variable {α β : Type} [LT α]

def Ordered {δ : Type} (t : Tree α δ) : Prop := t.Forall fun _ ch => SortedMap.Sorted ch

def Canonical (empty : β) (t : Radix α β) : Prop :=
  t.Forall fun data ch => SortedMap.Sorted ch ∧ (data.2 ≠ empty ∨ 2 ≤ ch.length)

variable {empty : β} {t : Radix α β}

theorem Canonical.ordered (h : Canonical empty t) : Ordered t := h.imp fun _ _ hnode => hnode.1

theorem Ordered.split (h : Ordered t) (empty : β) (p : ℕ) : Ordered (split empty p t) := by
  obtain ⟨⟨pre,v⟩,ch⟩ := t
  cases h with
  | node hsorted hch =>
    rw [RadixTree.split]
    split
    · exact .node hsorted hch
    · refine .node (List.pairwise_singleton _ _) ?_
      intro e he
      rw [List.mem_singleton.mp he]
      exact .node hsorted hch

/-- What a canonical node is after it was split; the second case is the split. -/
theorem Canonical.split {p : ℕ} {pre : List α} {v : β} {ch : List (α × Radix α β)} (h : Canonical empty t)
    (hsplit : split empty p t = .node (pre,v) ch) :
    SortedMap.Sorted ch ∧ (∀ e ∈ ch, Canonical empty e.2) ∧
      ((v ≠ empty ∨ 2 ≤ ch.length) ∨ ∃ c rest t', t.data.1.drop p = c::rest ∧ ch = [(c,t')]) := by
  obtain ⟨⟨pre',v'⟩,ch'⟩ := t
  cases h with
  | node hnode hch =>
    rw [RadixTree.split] at hsplit
    split at hsplit
    · cases hsplit
      exact ⟨hnode.1,hch,Or.inl hnode.2⟩
    · next c rest hdrop =>
      cases hsplit
      refine ⟨List.pairwise_singleton _ _,?_,Or.inr ⟨c,rest,_,hdrop,rfl⟩⟩
      intro e he
      rw [List.mem_singleton.mp he]
      exact .node hnode hch

variable [DecidableEq α] [DecidableLT α] {same : α → α → Bool}

omit [LT α] [DecidableEq α] [DecidableLT α] in
theorem not_same_of_drop_common {pre s pre' s' : List α} {a b : α}
    (hpre : pre.drop (common same pre s) = a::pre') (hs : s.drop (common same pre s) = b::s') :
    same a b = false := by
  induction pre generalizing s with
  | nil => simp at hpre
  | cons c pre ih =>
    cases s with
    | nil => simp at hs
    | cons d s =>
      by_cases h : same c d = true
      · rw [common,if_pos h] at hpre hs
        exact ih hpre hs
      · rw [common,if_neg h] at hpre hs
        cases hpre
        cases hs
        simpa using h

omit [LT α] [DecidableEq α] [DecidableLT α] in
theorem drop_of_split {t : Radix α β} {pre rest : List α} {v : β} {ch : List (α × Radix α β)}
    (hsame : ∀ a b, same a b = true → a = b)
    (hsplit : split empty (common same t.data.1 (pre ++ rest)) t = .node (pre,v) ch) :
    (pre ++ rest).drop (common same t.data.1 (pre ++ rest)) = rest := by
  have hpre : pre = (pre ++ rest).take (common same t.data.1 (pre ++ rest)) := by
    rw [← take_common hsame,← data_split,hsplit]
    rfl
  have hcut := List.take_append_drop (common same t.data.1 (pre ++ rest)) (pre ++ rest)
  rw [← hpre] at hcut
  exact List.append_cancel_left hcut

variable [LE α] [Std.LawfulOrderLT α] [Std.IsLinearOrder α]

theorem Inserted.ordered {f : β → β} {t' : Radix α β} {s : List α} (h : Inserted same empty f t s t')
    (ht : Ordered t) : Ordered t' := by
  induction h with
  | @here t pre v ch hsplit =>
    have hu := hsplit ▸ ht.split empty _
    cases hu with
    | node hsorted hch => exact .node hsorted hch
  | @new t pre rest v ch c hsplit hget =>
    have hu := hsplit ▸ ht.split empty _
    cases hu with
    | node hsorted hch =>
      refine .node (SortedMap.Sorted.insert hsorted hget _) ?_
      intro e he
      rcases SortedMap.mem_insert.mp he with rfl | he
      · exact .node List.Pairwise.nil (by simp)
      · exact hch e he
  | @child t child child' pre rest v ch c hsplit hget hchild ih =>
    have hu := hsplit ▸ ht.split empty _
    cases hu with
    | node hsorted hch =>
      refine .node (SortedMap.Sorted.set hsorted c child') ?_
      intro e he
      rcases SortedMap.mem_set he with rfl | he
      · exact ih (hch _ (SortedMap.mem_of_get hget))
      · exact hch e he

/-- An insertion keeps the tree canonical if a letter of the string is the same as itself. -/
theorem Inserted.canonical {f : β → β} {t' : Radix α β} {s : List α} (h : Inserted same empty f t s t')
    (hsame : ∀ a b, same a b = true → a = b) (hf : ∀ x, f x ≠ empty) (hs : ∀ c ∈ s, same c c = true)
    (ht : Canonical empty t) : Canonical empty t' := by
  induction h with
  | @here t pre v ch hsplit =>
    obtain ⟨hsorted,hch,-⟩ := ht.split hsplit
    exact .node ⟨hsorted,Or.inl (hf v)⟩ hch
  | @new t pre rest v ch c hsplit hget =>
    obtain ⟨hsorted,hch,hproper⟩ := ht.split hsplit
    have hlen := SortedMap.length_insert c (Tree.node (rest,f empty) []) ch
    refine .node ⟨SortedMap.Sorted.insert hsorted hget _,?_⟩ ?_
    · rcases hproper with (hv | htwo) | ⟨c',rest',t',-,rfl⟩
      · exact Or.inl hv
      · exact Or.inr (by rw [hlen]; omega)
      · exact Or.inr (by rw [hlen]; exact Nat.le_refl 2)
    · intro e he
      rcases SortedMap.mem_insert.mp he with rfl | he
      · exact .node ⟨List.Pairwise.nil,Or.inl (hf empty)⟩ (by simp)
      · exact hch e he
  | @child t child child' pre rest v ch c hsplit hget hchild ih =>
    obtain ⟨hsorted,hch,hproper⟩ := ht.split hsplit
    have hrest : ∀ c ∈ rest, same c c = true := fun c hc => hs c (by simp [hc])
    refine .node ⟨SortedMap.Sorted.set hsorted c child',?_⟩ ?_
    · rcases hproper with (hv | htwo) | ⟨c',rest',t',hdrop,rfl⟩
      · exact Or.inl hv
      · exact Or.inr (by rw [SortedMap.set,List.length_map]; exact htwo)
      · obtain rfl : c' = c := by
          by_contra hne
          simp [SortedMap.get_cons,hne] at hget
        have hnot := not_same_of_drop_common hdrop (drop_of_split hsame hsplit)
        rw [hs c' (by simp)] at hnot
        cases hnot
    · intro e he
      rcases SortedMap.mem_set he with rfl | he
      · exact ih hrest (hch _ (SortedMap.mem_of_get hget))
      · exact hch e he

omit [DecidableEq α] [DecidableLT α] [Std.IsLinearOrder α] in
theorem two_children {ch : List (α × Radix α β)} (hsorted : SortedMap.Sorted ch) (hlen : 2 ≤ ch.length) :
    ∃ c₁ t₁ c₂ t₂, (c₁,t₁) ∈ ch ∧ (c₂,t₂) ∈ ch ∧ c₁ ≠ c₂ := by
  match ch, hsorted, hlen with
  | (c₁,t₁)::(c₂,t₂)::ch, hsorted, _ =>
    have hlt : c₁ < c₂ := (List.pairwise_cons.mp hsorted).1 (c₂,t₂) (by simp)
    exact ⟨c₁,t₁,c₂,t₂,by simp,by simp,Std.ne_of_lt hlt⟩

omit [DecidableLT α] [Std.IsLinearOrder α] in
theorem find_of_mem {pre : List α} {v : β} {ch : List (α × Radix α β)} (hsorted : SortedMap.Sorted ch) {c : α}
    {t : Radix α β} (hmem : (c,t) ∈ ch) (rest : List α) :
    find empty (.node (pre,v) ch) (pre ++ c::rest) = find empty t rest := by
  rw [find_child,hsorted.get_of_mem hmem,Option.elim_some]

omit [DecidableLT α] [Std.IsLinearOrder α] in
theorem Canonical.exists_find (h : Canonical empty t) : ∃ s, find empty t s ≠ empty := by
  induction h with
  | @node data ch hnode _ ih =>
    obtain ⟨pre,v⟩ := data
    rcases hnode.2 with hv | hlen
    · exact ⟨pre,by rw [find_self]; exact hv⟩
    · obtain ⟨c,t,-,-,hmem,-⟩ := two_children hnode.1 hlen
      obtain ⟨s,hs⟩ := ih (c,t) hmem
      exact ⟨pre ++ c::s,by rw [find_of_mem hnode.1 hmem]; exact hs⟩

omit [LT α] [DecidableLT α] [LE α] [Std.LawfulOrderLT α] [Std.IsLinearOrder α] in
theorem find_append (lit pre q : List α) {v : β} {ch : List (α × Radix α β)} :
    find empty (.node (lit ++ pre,v) ch) (lit ++ q) = find empty (.node (pre,v) ch) q := by
  rcases prefix_cases pre q with rfl | ⟨c,rest,rfl⟩ | hother
  · rw [find_self,find_self]
  · rw [← List.append_assoc,find_child,find_child]
  · rw [find_other hother,find_other fun h => hother ((List.prefix_append_right_inj lit).mp h)]

omit [LT α] [DecidableLT α] [LE α] [Std.LawfulOrderLT α] [Std.IsLinearOrder α] in
theorem prefix_of_find {pre s : List α} {v : β} {ch : List (α × Radix α β)}
    (h : find empty (.node (pre,v) ch) s ≠ empty) : pre <+: s := by
  by_contra hpre
  exact h (find_other hpre)

omit [DecidableLT α] [Std.IsLinearOrder α] in
/-- The prefix of a canonical tree is the longest that all its strings have. -/
theorem Canonical.prefix_le (h : Canonical empty t) {q : List α} (hq : ∀ s, find empty t s ≠ empty → q <+: s) :
    q <+: t.data.1 := by
  cases h with
  | @node data ch hnode hch =>
    obtain ⟨pre,v⟩ := data
    rcases hnode.2 with hv | hlen
    · exact hq pre (by rw [find_self]; exact hv)
    · obtain ⟨c₁,t₁,c₂,t₂,hmem₁,hmem₂,hne⟩ := two_children hnode.1 hlen
      obtain ⟨s₁,hs₁⟩ := Canonical.exists_find (hch _ hmem₁)
      obtain ⟨s₂,hs₂⟩ := Canonical.exists_find (hch _ hmem₂)
      have hq₁ := hq (pre ++ c₁::s₁) (by rw [find_of_mem hnode.1 hmem₁]; exact hs₁)
      have hq₂ := hq (pre ++ c₂::s₂) (by rw [find_of_mem hnode.1 hmem₂]; exact hs₂)
      rcases prefix_cases q pre with heq | ⟨c,rest,heq⟩ | hnot
      · exact heq ▸ List.prefix_refl _
      · exact heq ▸ List.prefix_append _ _
      · rcases List.prefix_or_prefix_of_prefix hq₁ (List.prefix_append pre _) with hle | hle
        · exact hle
        · obtain ⟨r,rfl⟩ := hle
          rw [List.prefix_append_right_inj] at hq₁ hq₂
          cases r with
          | nil => exact absurd (by simp) hnot
          | cons d r =>
            rw [List.cons_prefix_cons] at hq₁ hq₂
            exact absurd (hq₁.1.symm.trans hq₂.1) hne

omit [DecidableLT α] in
theorem children_ext {ch₁ ch₂ : List (α × Radix α β)} (hs₁ : SortedMap.Sorted ch₁) (hs₂ : SortedMap.Sorted ch₂)
    (hc₁ : ∀ e ∈ ch₁, Canonical empty e.2) (hc₂ : ∀ e ∈ ch₂, Canonical empty e.2)
    (hext : ∀ e ∈ ch₁, ∀ t, Canonical empty t → (∀ s, find empty e.2 s = find empty t s) → e.2 = t)
    (hfind : ∀ c rest, (SortedMap.get ch₁ c).elim empty (find empty · rest) =
      (SortedMap.get ch₂ c).elim empty (find empty · rest)) : ch₁ = ch₂ := by
  refine hs₁.ext hs₂ ?_
  intro c
  cases h₁ : SortedMap.get ch₁ c with
  | none =>
    cases h₂ : SortedMap.get ch₂ c with
    | none => rfl
    | some t₂ =>
      obtain ⟨s,hs⟩ := (hc₂ _ (SortedMap.mem_of_get h₂)).exists_find
      have hsame := hfind c s
      rw [h₁,h₂] at hsame
      exact absurd hsame.symm hs
  | some t₁ =>
    cases h₂ : SortedMap.get ch₂ c with
    | none =>
      obtain ⟨s,hs⟩ := (hc₁ _ (SortedMap.mem_of_get h₁)).exists_find
      have hsame := hfind c s
      rw [h₁,h₂] at hsame
      exact absurd hsame hs
    | some t₂ =>
      refine congrArg some (hext _ (SortedMap.mem_of_get h₁) t₂ (hc₂ _ (SortedMap.mem_of_get h₂)) ?_)
      intro s
      have hsame := hfind c s
      rw [h₁,h₂] at hsame
      exact hsame

omit [DecidableLT α] in
theorem Canonical.ext {t' : Radix α β} (h : Canonical empty t) (h' : Canonical empty t')
    (hfind : ∀ s, find empty t s = find empty t' s) : t = t' := by
  induction h generalizing t' with
  | @node data ch hnode hch ih =>
    obtain ⟨pre,v⟩ := data
    cases h' with
    | @node data' ch' hnode' hch' =>
      obtain ⟨pre',v'⟩ := data'
      have hle : pre <+: pre' :=
        Canonical.prefix_le (.node hnode' hch') fun s hs => prefix_of_find fun heq => hs ((hfind s).symm.trans heq)
      have hle' : pre' <+: pre :=
        Canonical.prefix_le (.node hnode hch) fun s hs => prefix_of_find fun heq => hs ((hfind s).trans heq)
      obtain rfl : pre = pre' := hle.eq_of_length (Nat.le_antisymm hle.length_le hle'.length_le)
      have hv : v = v' := by
        have hself := hfind pre
        rwa [find_self,find_self] at hself
      have hchildren : ch = ch' := by
        refine children_ext hnode.1 hnode'.1 hch hch' (fun e he t ht hs => ih e he ht hs) ?_
        intro c rest
        rw [← find_child,← find_child]
        exact hfind _
      rw [hv,hchildren]

def Letters (P : α → Prop) (t : Radix α β) : Prop :=
  t.Forall fun data ch => (∀ c ∈ data.1, P c) ∧ ∀ e ∈ ch, P e.1

omit [LT α] [DecidableEq α] [DecidableLT α] [LE α] [Std.LawfulOrderLT α] [Std.IsLinearOrder α] in
theorem Letters.split {P : α → Prop} (h : Letters P t) (empty : β) (p : ℕ) : Letters P (split empty p t) := by
  obtain ⟨⟨pre,v⟩,ch⟩ := t
  cases h with
  | node hnode hch =>
    rw [RadixTree.split]
    split
    · exact .node hnode hch
    · next c rest hdrop =>
      have hletters : ∀ d ∈ c::rest, P d := fun d hd => hnode.1 d (List.mem_of_mem_drop (hdrop ▸ hd))
      refine .node ⟨fun d hd => hnode.1 d (List.mem_of_mem_take hd),?_⟩ ?_
      · intro e he
        rw [List.mem_singleton.mp he]
        exact hletters c List.mem_cons_self
      · intro e he
        rw [List.mem_singleton.mp he]
        exact .node ⟨fun d hd => hletters d (List.mem_cons_of_mem _ hd),hnode.2⟩ hch

omit [LE α] [Std.LawfulOrderLT α] [Std.IsLinearOrder α] in
theorem Inserted.letters {P : α → Prop} {f : β → β} {t' : Radix α β} {s : List α}
    (h : Inserted same empty f t s t') (hs : ∀ c ∈ s, P c) (ht : Letters P t) : Letters P t' := by
  induction h with
  | @here t pre v ch hsplit =>
    have hu := hsplit ▸ ht.split empty _
    cases hu with
    | node hnode hch => exact .node hnode hch
  | @new t pre rest v ch c hsplit hget =>
    have hu := hsplit ▸ ht.split empty _
    cases hu with
    | node hnode hch =>
      refine .node ⟨hnode.1,?_⟩ ?_
      · intro e he
        rcases SortedMap.mem_insert.mp he with rfl | he
        · exact hs c (by simp)
        · exact hnode.2 e he
      · intro e he
        rcases SortedMap.mem_insert.mp he with rfl | he
        · exact .node ⟨fun d hd => hs d (by simp [show d ∈ rest from hd]),by simp⟩ (by simp)
        · exact hch e he
  | @child t child child' pre rest v ch c hsplit hget hchild ih =>
    have hu := hsplit ▸ ht.split empty _
    cases hu with
    | node hnode hch =>
      refine .node ⟨hnode.1,?_⟩ ?_
      · intro e he
        rcases SortedMap.mem_set he with rfl | he
        · exact hs c (by simp)
        · exact hnode.2 e he
      · intro e he
        rcases SortedMap.mem_set he with rfl | he
        · exact ih (fun d hd => hs d (by simp [hd])) (hch _ (SortedMap.mem_of_get hget))
        · exact hch e he

/-- All values of the tree meet the condition. -/
def Values {δ : Type} (Q : β → Prop) (t : Tree α (δ × β)) : Prop := t.Forall fun data _ => Q data.2

omit [LE α] [Std.LawfulOrderLT α] [Std.IsLinearOrder α] in
theorem Inserted.values {Q : β → Prop} {f : β → β} {t' : Radix α β} {s : List α}
    (h : Inserted same empty f t s t') (hempty : Q empty) (hf : ∀ v, Q v → Q (f v)) (ht : Values Q t) :
    Values Q t' := by
  have hsplit' : ∀ {t : Radix α β} (p : ℕ), Values Q t → Values Q (split empty p t) := by
    intro t p ht
    obtain ⟨⟨pre,v⟩,ch⟩ := t
    cases ht with
    | node hnode hch =>
      rw [split]
      split
      · exact .node hnode hch
      · refine .node hempty ?_
        intro e he
        rw [List.mem_singleton.mp he]
        exact .node hnode hch
  induction h with
  | @here t pre v ch hsplit =>
    have hu := hsplit ▸ hsplit' _ ht
    cases hu with
    | node hnode hch => exact .node (hf _ hnode) hch
  | @new t pre rest v ch c hsplit hget =>
    have hu := hsplit ▸ hsplit' _ ht
    cases hu with
    | node hnode hch =>
      refine .node hnode ?_
      intro e he
      rcases SortedMap.mem_insert.mp he with rfl | he
      · exact .node (hf _ hempty) (by simp)
      · exact hch e he
  | @child t child child' pre rest v ch c hsplit hget hchild ih =>
    have hu := hsplit ▸ hsplit' _ ht
    cases hu with
    | node hnode hch =>
      refine .node hnode ?_
      intro e he
      rcases SortedMap.mem_set he with rfl | he
      · exact ih (hch _ (SortedMap.mem_of_get hget))
      · exact hch e he

/-- No way through the tree has more than `n` letters. -/
inductive Within : ℕ → Radix α β → Prop
  | node {n : ℕ} {pre : List α} {v : β} {ch : List (α × Radix α β)} (hlen : pre.length ≤ n)
      (hlt : ∀ e ∈ ch, pre.length < n) (hch : ∀ e ∈ ch, Within (n-(pre.length+1)) e.2) : Within n (.node (pre,v) ch)

omit [LT α] [DecidableEq α] [DecidableLT α] [LE α] [Std.LawfulOrderLT α] [Std.IsLinearOrder α] in
theorem Within.mono {n m : ℕ} (h : Within n t) (hnm : n ≤ m) : Within m t := by
  induction h generalizing m with
  | node hlen hlt _ ih =>
    exact .node (hlen.trans hnm) (fun e he => lt_of_lt_of_le (hlt e he) hnm) fun e he => ih e he (by omega)

omit [LT α] [DecidableEq α] [DecidableLT α] [LE α] [Std.LawfulOrderLT α] [Std.IsLinearOrder α] in
theorem Within.split {n : ℕ} (h : Within n t) (empty : β) (p : ℕ) : Within n (split empty p t) := by
  cases h with
  | @node _ pre v ch hlen hlt hch =>
    rw [RadixTree.split]
    split
    · exact .node hlen hlt hch
    · next c rest hdrop =>
      have hpre : pre.length = (pre.take p).length+(rest.length+1) := by
        rw [← List.length_cons,← hdrop,← List.length_append,List.take_append_drop]
      have hbelow : n-((pre.take p).length+1)-(rest.length+1) = n-(pre.length+1) := by omega
      refine .node (by omega) (fun _ _ => by omega) ?_
      intro e he
      rw [List.mem_singleton.mp he]
      refine .node (by omega) (fun x hx => ?_) fun x hx => ?_
      · have := hlt x hx
        omega
      · rw [hbelow]
        exact hch x hx

omit [LE α] [Std.LawfulOrderLT α] [Std.IsLinearOrder α] in
theorem Inserted.within {n : ℕ} {f : β → β} {t' : Radix α β} {s : List α} (h : Inserted same empty f t s t')
    (hs : s.length ≤ n) (ht : Within n t) : Within n t' := by
  induction h generalizing n with
  | @here t pre v ch hsplit =>
    have hu := hsplit ▸ ht.split empty _
    cases hu with
    | node hlen hlt hch => exact .node hlen hlt hch
  | @new t pre rest v ch c hsplit hget =>
    have hu := hsplit ▸ ht.split empty _
    rw [List.length_append,List.length_cons] at hs
    cases hu with
    | node hlen hlt hch =>
      refine .node hlen (fun _ _ => by omega) ?_
      intro e he
      rcases SortedMap.mem_insert.mp he with rfl | he
      · exact .node (by omega) (by simp) (by simp)
      · exact hch e he
  | @child t child child' pre rest v ch c hsplit hget hchild ih =>
    have hu := hsplit ▸ ht.split empty _
    rw [List.length_append,List.length_cons] at hs
    cases hu with
    | node hlen hlt hch =>
      refine .node hlen (fun _ _ => by omega) ?_
      intro e he
      rcases SortedMap.mem_set he with rfl | he
      · exact ih (by omega) (hch _ (SortedMap.mem_of_get hget))
      · exact hch e he

/-- The root of a canonical tree: it has no prefix, and stands there also without strings. -/
structure CanonicalRoot (empty : β) (t : Radix α β) : Prop where
  pre : t.data.1 = []
  sorted : SortedMap.Sorted t.children
  children : ∀ e ∈ t.children, Canonical empty e.2

theorem Inserted.canonicalRoot {f : β → β} {t' : Radix α β} {s : List α} (h : Inserted same empty f t s t')
    (hsame : ∀ a b, same a b = true → a = b) (hf : ∀ x, f x ≠ empty) (hs : ∀ c ∈ s, same c c = true)
    (ht : CanonicalRoot empty t) : CanonicalRoot empty t' := by
  have hkeep : ∀ p, split empty p t = t := by
    intro p
    obtain ⟨⟨pre,v⟩,ch⟩ := t
    obtain rfl : pre = [] := ht.pre
    rw [split,List.drop_nil]
  cases h with
  | @here _ pre v ch hsplit =>
    rw [hkeep] at hsplit
    subst hsplit
    exact ⟨ht.pre,ht.sorted,ht.children⟩
  | @new _ pre rest v ch c hsplit hget =>
    rw [hkeep] at hsplit
    subst hsplit
    refine ⟨ht.pre,SortedMap.Sorted.insert ht.sorted hget _,?_⟩
    intro e he
    rcases SortedMap.mem_insert.mp he with rfl | he
    · exact .node ⟨List.Pairwise.nil,Or.inl (hf empty)⟩ (by simp)
    · exact ht.children e he
  | @child _ child child' pre rest v ch c hsplit hget hchild =>
    rw [hkeep] at hsplit
    subst hsplit
    refine ⟨ht.pre,SortedMap.Sorted.set ht.sorted c child',?_⟩
    intro e he
    rcases SortedMap.mem_set he with rfl | he
    · exact hchild.canonical hsame hf (fun c hc => hs c (by simp [hc])) (ht.children _ (SortedMap.mem_of_get hget))
    · exact ht.children e he

omit [DecidableLT α] in
theorem CanonicalRoot.ext {t' : Radix α β} (h : CanonicalRoot empty t) (h' : CanonicalRoot empty t')
    (hfind : ∀ s, find empty t s = find empty t' s) : t = t' := by
  obtain ⟨⟨pre,v⟩,ch⟩ := t
  obtain ⟨⟨pre',v'⟩,ch'⟩ := t'
  obtain rfl : pre = [] := h.pre
  obtain rfl : pre' = [] := h'.pre
  have hv : v = v' := by
    have hself := hfind []
    rwa [find_self,find_self] at hself
  have hchildren : ch = ch' := by
    refine children_ext h.sorted h'.sorted h.children h'.children (fun e he t ht hs => (h.children e he).ext ht hs) ?_
    intro c rest
    have hchild := hfind ([] ++ c::rest)
    rwa [find_child,find_child] at hchild
  rw [hv,hchildren]

end Ordered

end RadixTree
end Udev
