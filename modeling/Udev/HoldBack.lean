import Mathlib.Data.List.Basic
import Mathlib.Data.List.Induction
import Mathlib.Data.List.Infix

/-! A pass over a sorted list that holds one element back. An element that may be held is
moved behind the elements that stay with it, if no other is held when its turn comes. The
element that ends the group of the held one is not looked at. -/
namespace Udev
namespace HoldBack

open scoped List

variable {α : Type*} (may : α → Bool) (stays : α → α → Bool)

def next : Option α → α → Option α
  | none, e => if may e then some e else none
  | some h, e => if stays h e then some h else none

def emit : Option α → α → List α
  | none, e => if may e then [] else [e]
  | some h, e => if stays h e then [e] else [h,e]

def pass : Option α → List α → List α
  | held, [] => held.toList
  | held, e::l => emit may stays held e ++ pass (next may stays held e) l

def after (held : Option α) (l : List α) : Option α := l.foldl (next may stays) held

/-- The element is held when its turn comes. -/
def Held (held : Option α) (l : List α) (a : α) : Prop :=
  ∃ x z, l = x ++ a::z ∧ may a = true ∧ after may stays held x = none

variable {may stays}

theorem after_concat (held : Option α) (l : List α) (e : α) :
    after may stays held (l ++ [e]) = next may stays (after may stays held l) e := by
  rw [after,List.foldl_append]
  rfl

/-- An element is held after a part of the list if it was held at its turn and all later
ones stay with it. -/
theorem after_eq_some {l : List α} {a : α} :
    after may stays none l = some a ↔
      ∃ x y, l = x ++ a::y ∧ may a = true ∧ after may stays none x = none ∧ ∀ e ∈ y, stays a e = true := by
  induction l using List.reverseRecOn generalizing a with
  | nil => simp [after]
  | append_singleton l e ih =>
    rw [after_concat]
    constructor
    · intro h
      cases hheld : after may stays none l with
      | none =>
        rw [hheld,next] at h
        split_ifs at h with hmay
        obtain rfl := Option.some.inj h
        exact ⟨l,[],rfl,hmay,hheld,by simp⟩
      | some b =>
        rw [hheld,next] at h
        split_ifs at h with hstays
        obtain rfl := Option.some.inj h
        obtain ⟨x,y,rfl,hmay,hx,hy⟩ := ih.mp hheld
        refine ⟨x,y ++ [e],by simp,hmay,hx,?_⟩
        intro c hc
        rcases List.mem_append.mp hc with hc | hc
        · exact hy c hc
        · exact List.mem_singleton.mp hc ▸ hstays
    · rintro ⟨x,y,hl,hmay,hx,hy⟩
      rcases List.eq_nil_or_concat y with rfl | ⟨y,c,rfl⟩
      · obtain ⟨rfl,rfl⟩ := List.append_inj' hl rfl |>.imp id fun h => (List.cons.inj h).1
        rw [hx,next,if_pos hmay]
      · have hl' : l ++ [e] = (x ++ a::y) ++ [c] := by simpa using hl
        obtain ⟨rfl,rfl⟩ := List.append_inj' hl' rfl |>.imp id fun h => (List.cons.inj h).1
        have hheld := ih.mpr ⟨x,y,rfl,hmay,hx,fun b hb => hy b (by simp [hb])⟩
        rw [hheld,next,if_pos (hy e (by simp))]

theorem pass_perm (held : Option α) (l : List α) : (pass may stays held l).Perm (held.toList ++ l) := by
  induction l generalizing held with
  | nil => simp [pass]
  | cons e l ih =>
    rw [pass]
    refine ((ih _).append_left _).trans ?_
    cases held with
    | none =>
      rw [emit,next]
      split_ifs <;> simp
    | some h =>
      rw [emit,next]
      split_ifs
      · simpa using List.Perm.swap h e l
      · simp

theorem mem_pass {held : Option α} {l : List α} {a : α} : a ∈ pass may stays held l ↔ held = some a ∨ a ∈ l := by
  rw [(pass_perm held l).mem_iff,List.mem_append,Option.mem_toList]

theorem Held.mem {held : Option α} {l : List α} {a : α} (h : Held may stays held l a) : a ∈ l := by
  obtain ⟨x,z,rfl,-,-⟩ := h
  simp

theorem held_cons {held : Option α} {e a : α} {l : List α} :
    Held may stays held (e::l) a ↔
      a = e ∧ may e = true ∧ held = none ∨ Held may stays (next may stays held e) l a := by
  constructor
  · rintro ⟨_ | ⟨c,x⟩,z,heq,hmay,hnone⟩
    · obtain ⟨rfl,-⟩ := List.cons.inj heq
      exact Or.inl ⟨rfl,hmay,hnone⟩
    · obtain ⟨rfl,rfl⟩ := List.cons.inj heq
      exact Or.inr ⟨x,z,rfl,hmay,hnone⟩
  · rintro (⟨rfl,hmay,rfl⟩ | ⟨x,z,rfl,hmay,hnone⟩)
    · exact ⟨[],l,rfl,hmay,rfl⟩
    · exact ⟨e::x,z,rfl,hmay,hnone⟩

variable (stays) in
def Grouped (l : List α) : Prop := ∀ a b c, [a,b,c] <+ l → stays a c = true → stays a b = true

theorem Grouped.sublist {l l' : List α} (h : Grouped stays l') (hl : l <+ l') : Grouped stays l :=
  fun a b c habc => h a b c (habc.trans hl)

theorem pair_sublist_cons {a b c : α} {l : List α} : [a,b] <+ c::l ↔ [a,b] <+ l ∨ a = c ∧ b ∈ l := by
  rw [List.sublist_cons_iff]
  refine or_congr_right ⟨?_,?_⟩
  · rintro ⟨r,hr,h⟩
    obtain ⟨rfl,rfl⟩ := List.cons.inj hr
    exact ⟨rfl,List.singleton_sublist.mp h⟩
  · rintro ⟨rfl,h⟩
    exact ⟨[b],rfl,List.singleton_sublist.mpr h⟩

theorem pair_sublist_asymm {a b : α} {l : List α} (hl : l.Nodup) (h : [a,b] <+ l) : ¬[b,a] <+ l := by
  induction l with
  | nil => cases h
  | cons c l ih =>
    obtain ⟨hc,hl⟩ := List.nodup_cons.mp hl
    rw [pair_sublist_cons] at h ⊢
    rintro (hba | ⟨rfl,ha⟩)
    · rcases h with hab | ⟨rfl,-⟩
      · exact ih hl hab hba
      · exact hc (hba.subset (by simp))
    · rcases h with hab | ⟨rfl,-⟩
      · exact hc (hab.subset (by simp))
      · exact hc ha

theorem pair_sublist_cons_self {a b : α} {l : List α} (h : b ∈ l) : [a,b] <+ a::l :=
  pair_sublist_cons.mpr (Or.inr ⟨rfl,h⟩)

theorem not_held {held held' : Option α} {l : List α} {a : α} (hheld : held ≠ some a) (hl : a ∉ l) :
    ¬(held = some a ∨ Held may stays held' l a) :=
  not_or.mpr ⟨hheld,fun h => hl h.mem⟩

theorem turned_cons {P : Prop} {a b : α} {out : List α} (h : (P → [b,a] <+ out) ∧ (¬P → [a,b] <+ out)) (e : α) :
    (P → [b,a] <+ e::out) ∧ (¬P → [a,b] <+ e::out) :=
  ⟨fun hP => (h.1 hP).cons e,fun hP => (h.2 hP).cons e⟩

theorem turned_of_not {P Q : Prop} {a b : α} {out : List α} (hP : ¬P) (h : [a,b] <+ out) :
    (P ∧ Q → [b,a] <+ out) ∧ (¬(P ∧ Q) → [a,b] <+ out) :=
  ⟨fun hPQ => absurd hPQ.1 hP,fun _ => h⟩

/-- Two elements change their order if the first one is held and the second one stays with it. -/
theorem pass_order {held : Option α} {l : List α} (hnodup : (held.toList ++ l).Nodup)
    (hgroup : Grouped stays (held.toList ++ l)) {a b : α} (hab : [a,b] <+ held.toList ++ l) :
    ((held = some a ∨ Held may stays held l a) ∧ stays a b = true → [b,a] <+ pass may stays held l) ∧
      (¬((held = some a ∨ Held may stays held l a) ∧ stays a b = true) → [a,b] <+ pass may stays held l) := by
  induction l generalizing held with
  | nil =>
    have hlen := hab.length_le
    cases held <;> simp at hlen
  | cons e l ih =>
    rw [pass,held_cons]
    cases held with
    | none =>
      rw [next]
      by_cases hmay : may e = true
      · rw [if_pos hmay,emit,if_pos hmay,List.nil_append]
        have hrest := @ih (some e) hnodup hgroup hab
        have hheld : none = some a ∨ (a = e ∧ may e = true ∧ (none : Option α) = none ∨
            Held may stays (some e) l a) ↔ some e = some a ∨ Held may stays (some e) l a := by
          simp [hmay,eq_comm]
        rw [hheld]
        exact hrest
      · rw [if_neg hmay,emit,if_neg hmay]
        simp only [hmay,Bool.false_eq_true,false_and,and_false,false_or]
        obtain ⟨he,hl⟩ := List.nodup_cons.mp hnodup
        rcases pair_sublist_cons.mp hab with hal | ⟨rfl,hb⟩
        · exact turned_cons (@ih none hl (hgroup.sublist (List.sublist_cons_self e l)) hal) e
        · exact turned_of_not (not_held (Option.some_ne_none _).symm he) (pair_sublist_cons_self (mem_pass.mpr (Or.inr hb)))
    | some h =>
      obtain ⟨hh,hel⟩ := List.nodup_cons.mp hnodup
      obtain ⟨he,hl⟩ := List.nodup_cons.mp hel
      have hhe : some h ≠ some e := fun heq => hh (Option.some.inj heq ▸ List.mem_cons_self)
      have hhl : h ∉ l := fun hmem => hh (List.mem_cons_of_mem e hmem)
      rw [next]
      simp only [reduceCtorEq,and_false,false_or]
      by_cases hstays : stays h e = true
      · rw [if_pos hstays,emit,if_pos hstays]
        have hsub : h::l <+ h::e::l := (List.sublist_cons_self e l).cons_cons h
        have hnext := fun hab => turned_cons (@ih (some h) (hnodup.sublist hsub) (hgroup.sublist hsub) hab) e
        rcases pair_sublist_cons.mp hab with hab | ⟨rfl,hb⟩
        · rcases pair_sublist_cons.mp hab with hab | ⟨rfl,hb⟩
          · exact hnext (hab.cons h)
          · exact turned_of_not (not_held hhe he) (pair_sublist_cons_self (mem_pass.mpr (Or.inr hb)))
        · rcases List.mem_cons.mp hb with rfl | hb
          · exact ⟨fun _ => pair_sublist_cons_self (mem_pass.mpr (Or.inl rfl)),fun hc => absurd ⟨Or.inl rfl,hstays⟩ hc⟩
          · exact hnext (pair_sublist_cons_self hb)
      · rw [if_neg hstays,emit,if_neg hstays]
        rcases pair_sublist_cons.mp hab with hab | ⟨rfl,hb⟩
        · rcases pair_sublist_cons.mp hab with hab | ⟨rfl,hb⟩
          · have hne : h ≠ a := by
              rintro rfl
              exact hhl (hab.subset List.mem_cons_self)
            have hrest := @ih none hl (hgroup.sublist ((List.sublist_cons_self e l).cons h)) hab
            simp only [Option.some.injEq,hne,false_or,reduceCtorEq] at hrest ⊢
            exact turned_cons (turned_cons hrest e) h
          · exact turned_of_not (not_held hhe he) ((pair_sublist_cons_self (mem_pass.mpr (Or.inr hb))).cons h)
        · have hno : ¬stays a b = true := by
            rcases List.mem_cons.mp hb with rfl | hb
            · exact hstays
            · intro hab
              exact hstays (hgroup a e b (List.cons_sublist_cons.mpr (pair_sublist_cons_self hb)) hab)
          refine ⟨fun hc => absurd hc.2 hno,fun _ => pair_sublist_cons_self ?_⟩
          rcases List.mem_cons.mp hb with rfl | hb
          · exact List.mem_cons_self
          · exact List.mem_cons_of_mem e (mem_pass.mpr (Or.inr hb))

section Turn

variable [LT α]

variable (may stays) in
/-- Everything between the first element, which may be held, and the second one stays with
the first one. -/
def Blocks (S : α → Prop) (a b : α) : Prop :=
  S a ∧ may a = true ∧ a < b ∧ ∀ e, S e → a < e → e < b → stays a e = true

variable (may stays) in
/-- Of elements that block one another in a row, every other one is held. -/
inductive Turn (S : α → Prop) : Bool → α → Prop
  | held {b : α} (hb : S b) (hmay : may b = true) (h : ∀ a, Blocks may stays S a b → Turn S false a) : Turn S true b
  | passed {a b : α} (ha : Turn S true a) (h : Blocks may stays S a b) : Turn S false b

variable [LE α] [Std.LawfulOrderLT α] [Std.IsLinearOrder α] {S : α → Prop} {l : List α}

omit [LE α] [Std.LawfulOrderLT α] [Std.IsLinearOrder α] in
theorem lt_of_append {x z : List α} {b e : α} (hl : (x ++ b::z).Pairwise (· < ·)) (he : e ∈ x) : e < b :=
  (List.pairwise_append.mp hl).2.2 e he b List.mem_cons_self

omit [LE α] [Std.LawfulOrderLT α] [Std.IsLinearOrder α] in
theorem lt_of_cons {x z : List α} {b e : α} (hl : (x ++ b::z).Pairwise (· < ·)) (he : e ∈ z) : b < e :=
  (List.pairwise_cons.mp (List.pairwise_append.mp hl).2.1).1 e he

theorem split_lt {x z x' z' : List α} {a b : α} (hl : l.Pairwise (· < ·)) (ha : l = x ++ a::z) (hb : l = x' ++ b::z')
    (hab : a < b) : ∃ y, x' = x ++ a::y := by
  rcases List.append_eq_append_iff.mp (ha.symm.trans hb) with ⟨w,rfl,hw⟩ | ⟨w,rfl,hw⟩
  · cases w with
    | nil =>
      obtain ⟨rfl,-⟩ := List.cons.inj hw
      exact absurd hab Std.lt_irrefl
    | cons c y =>
      obtain ⟨rfl,-⟩ := List.cons.inj hw
      exact ⟨y,rfl⟩
  · have hba : b < a ∨ b = a := by
      cases w with
      | nil => exact Or.inr (List.cons.inj hw).1
      | cons c y =>
        obtain ⟨rfl,-⟩ := List.cons.inj hw
        exact Or.inl (lt_of_append (ha ▸ hl) (by simp))
    rcases hba with hba | rfl
    · exact absurd (Std.lt_trans hab hba) Std.lt_irrefl
    · exact absurd hab Std.lt_irrefl

theorem after_iff_blocks {x z : List α} {a b : α} (hl : l.Pairwise (· < ·)) (hS : ∀ e, S e ↔ e ∈ l)
    (hb : l = x ++ b::z) :
    after may stays none x = some a ↔ Held may stays none l a ∧ Blocks may stays S a b := by
  rw [after_eq_some]
  constructor
  · rintro ⟨x,y,rfl,hmay,hnone,hy⟩
    have ha : l = x ++ a::(y ++ b::z) := by simpa using hb
    refine ⟨⟨x,_,ha,hmay,hnone⟩,(hS a).mpr (by simp [ha]),hmay,lt_of_append (hb ▸ hl) (by simp),?_⟩
    intro e he hae heb
    rw [hS,ha,List.mem_append,List.mem_cons,List.mem_append,List.mem_cons] at he
    rcases he with he | rfl | he | rfl | he
    · exact absurd (Std.lt_trans hae (lt_of_append (ha ▸ hl) he)) Std.lt_irrefl
    · exact absurd hae Std.lt_irrefl
    · exact hy e he
    · exact absurd heb Std.lt_irrefl
    · exact absurd (Std.lt_trans heb (lt_of_cons (hb ▸ hl) he)) Std.lt_irrefl
  · rintro ⟨⟨x',z',ha,hmay,hnone⟩,-,-,hlt,hbetween⟩
    obtain ⟨y,rfl⟩ := split_lt hl ha hb hlt
    refine ⟨x',y,rfl,hmay,hnone,?_⟩
    intro e he
    have ha' : l = x' ++ a::(y ++ b::z) := by simpa using hb
    exact hbetween e ((hS e).mpr (by simp [ha',he])) (lt_of_cons (ha' ▸ hl) (by simp [he]))
      (lt_of_append (hb ▸ hl) (by simp [he]))

theorem held_iff_blocks {b : α} (hl : l.Pairwise (· < ·)) (hS : ∀ e, S e ↔ e ∈ l) (hb : S b) (hmay : may b = true) :
    Held may stays none l b ↔ ∀ a, Blocks may stays S a b → ¬Held may stays none l a := by
  constructor
  · rintro ⟨x,z,heq,-,hnone⟩ a hblocks ha
    have hsome := (after_iff_blocks hl hS heq).mpr ⟨ha,hblocks⟩
    rw [hnone] at hsome
    cases hsome
  · intro h
    obtain ⟨x,z,heq⟩ := List.append_of_mem ((hS b).mp hb)
    refine ⟨x,z,heq,hmay,Option.eq_none_iff_forall_ne_some.mpr ?_⟩
    intro a hsome
    obtain ⟨ha,hblocks⟩ := (after_iff_blocks hl hS heq).mp hsome
    exact h a hblocks ha

theorem turn_sound {turn : Bool} {b : α} (hl : l.Pairwise (· < ·)) (hS : ∀ e, S e ↔ e ∈ l)
    (h : Turn may stays S turn b) : turn = true ↔ Held may stays none l b := by
  induction h with
  | held hb hmay _ ih =>
    refine iff_of_true rfl ((held_iff_blocks hl hS hb hmay).mpr ?_)
    intro a hblocks ha
    exact Bool.false_ne_true ((ih a hblocks).mpr ha)
  | passed _ h ih =>
    refine iff_of_false Bool.false_ne_true ?_
    rintro ⟨x,z,heq,-,hnone⟩
    have hsome := (after_iff_blocks hl hS heq).mpr ⟨ih.mp rfl,h⟩
    rw [hnone] at hsome
    cases hsome

theorem turn_complete (hl : l.Pairwise (· < ·)) (hS : ∀ e, S e ↔ e ∈ l) (n : ℕ) :
    ∀ x b z, x.length = n → l = x ++ b::z → may b = true → after may stays none x = none → Turn may stays S true b := by
  induction n using Nat.strong_induction_on with
  | h n ih =>
    intro x b z hn heq hmay hnone
    have hb : Held may stays none l b := ⟨x,z,heq,hmay,hnone⟩
    have hSb : S b := (hS b).mpr hb.mem
    refine .held hSb hmay ?_
    intro a hblocks
    have hnot := (held_iff_blocks hl hS hSb hmay).mp hb a hblocks
    obtain ⟨x',z',ha⟩ := List.append_of_mem ((hS a).mp hblocks.1)
    obtain ⟨y,rfl⟩ := split_lt hl ha heq hblocks.2.2.1
    cases hafter : after may stays none x' with
    | none => exact absurd ⟨x',z',ha,hblocks.2.1,hafter⟩ hnot
    | some c =>
      have hc := ((after_iff_blocks hl hS ha).mp hafter).2
      obtain ⟨x₁,y₁,rfl,hmay',hnone',-⟩ := after_eq_some.mp hafter
      refine .passed (ih x₁.length ?_ x₁ c (y₁ ++ a::z') rfl (by simpa using ha) hmay' hnone') hc
      rw [← hn]
      simp only [List.length_append,List.length_cons]
      omega

theorem held_iff_turn {b : α} (hl : l.Pairwise (· < ·)) (hS : ∀ e, S e ↔ e ∈ l) :
    Held may stays none l b ↔ Turn may stays S true b := by
  constructor
  · rintro ⟨x,z,heq,hmay,hnone⟩
    exact turn_complete hl hS x.length x b z rfl heq hmay hnone
  · intro h
    exact (turn_sound hl hS h).mp rfl

omit [LE α] [Std.LawfulOrderLT α] [Std.IsLinearOrder α] in
theorem grouped_of_sorted (hl : l.Pairwise (· < ·))
    (hstays : ∀ a b c, a < b → b < c → stays a c = true → stays a b = true) : Grouped stays l := by
  intro a b c h hac
  have hpair := hl.sublist h
  simp only [List.pairwise_cons,List.mem_cons,forall_eq_or_imp] at hpair
  exact hstays a b c hpair.1.1 hpair.2.1.1 hac

theorem pair_sublist_of_lt {a b : α} (hl : l.Pairwise (· < ·)) (ha : a ∈ l) (hb : b ∈ l) (hab : a < b) :
    [a,b] <+ l := by
  obtain ⟨x,z,hx⟩ := List.append_of_mem ha
  obtain ⟨x',z',hx'⟩ := List.append_of_mem hb
  obtain ⟨y,rfl⟩ := split_lt hl hx hx' hab
  rw [hx']
  have hfirst : [a] <+ x ++ a::y := List.singleton_sublist.mpr (by simp)
  exact hfirst.append (List.singleton_sublist.mpr List.mem_cons_self)

/-- The order of the pass: an element of every other turn comes after those that stay with
it, and all others come in their order. -/
theorem pass_sorted {a b : α} (hl : l.Pairwise (· < ·)) (hS : ∀ e, S e ↔ e ∈ l)
    (hstays : ∀ a b c, a < b → b < c → stays a c = true → stays a b = true) (ha : S a) (hb : S b) (hab : a < b) :
    ([b,a] <+ pass may stays none l ↔ Turn may stays S true a ∧ stays a b = true) ∧
      ([a,b] <+ pass may stays none l ↔ ¬(Turn may stays S true a ∧ stays a b = true)) := by
  have hnodup : ((none : Option α).toList ++ l).Nodup := hl.imp fun hlt => Std.ne_of_lt hlt
  have hpass : (pass may stays none l).Nodup := (pass_perm none l).nodup_iff.mpr hnodup
  have hsub := pair_sublist_of_lt hl ((hS a).mp ha) ((hS b).mp hb) hab
  have hgroup : Grouped stays ((none : Option α).toList ++ l) := grouped_of_sorted hl hstays
  obtain ⟨hmoved,hkept⟩ := pass_order hnodup hgroup hsub
  simp only [reduceCtorEq,false_or,held_iff_turn hl hS] at hmoved hkept
  refine ⟨⟨fun h => ?_,hmoved⟩,⟨fun h hc => pair_sublist_asymm hpass h (hmoved hc),hkept⟩⟩
  by_contra hc
  exact pair_sublist_asymm hpass h (hkept hc)

end Turn

end HoldBack
end Udev
