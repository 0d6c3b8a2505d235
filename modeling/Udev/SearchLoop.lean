import Mathlib.Data.List.Basic
import Mathlib.Order.Lattice

/-! Loops that stop at the first element whose step succeeds, with a state that the failed steps change
as well. Nested they are one loop over the pairs, and steps that correspond give runs that correspond. -/
namespace Udev
namespace SearchLoop

variable {α β ι σ κ : Type*}

def pick (f : α → σ → Bool × σ) : List α → σ → Option α × σ
  | [], s => (none,s)
  | a::l, s => if (f a s).1 then (some a,(f a s).2) else pick f l (f a s).2

def searchLoop (f : α → σ → Bool × σ) (l : List α) (s : σ) : Bool × σ := ((pick f l s).1.isSome,(pick f l s).2)

section Pick

variable {f : α → σ → Bool × σ}

theorem pick_cons_of_true {a : α} {l : List α} {s : σ} (h : (f a s).1 = true) :
    pick f (a::l) s = (some a,(f a s).2) := if_pos h

theorem pick_cons_of_false {a : α} {l : List α} {s : σ} (h : (f a s).1 = false) :
    pick f (a::l) s = pick f l (f a s).2 := if_neg (by rw [h]; exact Bool.false_ne_true)

theorem searchLoop_cons (a : α) (l : List α) (s : σ) :
    searchLoop f (a::l) s = if (f a s).1 then f a s else searchLoop f l (f a s).2 := by
  by_cases ha : (f a s).1 = true
  · rw [searchLoop,pick_cons_of_true ha,if_pos ha]
    exact Prod.ext ha.symm rfl
  · rw [if_neg ha,searchLoop,pick_cons_of_false (Bool.eq_false_iff.mpr ha)]
    rfl

theorem pick_append (l l' : List α) (s : σ) :
    pick f (l ++ l') s = if (pick f l s).1.isSome then pick f l s else pick f l' (pick f l s).2 := by
  induction l generalizing s with
  | nil => rfl
  | cons a l ih =>
    rw [List.cons_append]
    by_cases ha : (f a s).1 = true
    · rw [pick_cons_of_true ha,pick_cons_of_true ha,Option.isSome_some,if_pos rfl]
    · rw [Bool.not_eq_true] at ha
      rw [pick_cons_of_false ha,pick_cons_of_false ha,ih]

theorem searchLoop_append (l l' : List α) (s : σ) :
    searchLoop f (l ++ l') s = if (searchLoop f l s).1 then searchLoop f l s else searchLoop f l' (searchLoop f l s).2 := by
  rw [searchLoop,pick_append,searchLoop]
  by_cases hl : (pick f l s).1.isSome = true
  · rw [if_pos hl,if_pos hl]
  · rw [if_neg hl,if_neg hl]
    rfl

theorem pick_failed {s : σ} {l : List α} (h : ∀ a ∈ l, f a s = (false,s)) : pick f l s = (none,s) := by
  induction l with
  | nil => rfl
  | cons a l ih =>
    rw [List.forall_mem_cons] at h
    rw [pick_cons_of_false (by rw [h.1]),h.1]
    exact ih h.2

theorem pick_mem {l : List α} {s : σ} {a : α} (h : (pick f l s).1 = some a) : a ∈ l := by
  induction l generalizing s with
  | nil => cases h
  | cons b l ih =>
    by_cases hb : (f b s).1 = true
    · rw [pick_cons_of_true hb] at h
      exact Option.some.inj h ▸ List.mem_cons_self
    · rw [pick_cons_of_false (Bool.eq_false_iff.mpr hb)] at h
      exact List.mem_cons_of_mem b (ih h)

theorem searchLoop_map (f : ι → α → σ → Bool × σ) (i : ι) (l : List α) (s : σ) :
    searchLoop (f i) l s = searchLoop (fun c => f c.1 c.2) (l.map (i,·)) s := by
  induction l generalizing s with
  | nil => rfl
  | cons a l ih => rw [List.map_cons,searchLoop_cons,searchLoop_cons,ih]

theorem searchLoop_pairs (f : ι → α → σ → Bool × σ) (is : List ι) (l : List α) (s : σ) :
    searchLoop (fun i => searchLoop (f i) l) is s = searchLoop (fun c => f c.1 c.2) (is.flatMap fun i => l.map (i,·)) s := by
  induction is generalizing s with
  | nil => rfl
  | cons i is ih => rw [List.flatMap_cons,searchLoop_cons,searchLoop_append,ih,searchLoop_map f i l s]

/-- Steps on related states that both fail or both succeed give such runs: `R` relates the states while
the loops go on, `Q` relates them behind the step that ends both. -/
theorem pick_rel {g : α → κ → Bool × κ} {R : σ → κ → Prop} {Q : α → σ → κ → Prop}
    (hstep : ∀ a s k, R s k → (f a s).1 = (g a k).1 ∧
      ((g a k).1 = false → R (f a s).2 (g a k).2) ∧ ((g a k).1 = true → Q a (f a s).2 (g a k).2))
    (l : List α) {s : σ} {k : κ} (h : R s k) :
    (pick f l s).1 = (pick g l k).1 ∧
      ((pick g l k).1 = none → R (pick f l s).2 (pick g l k).2) ∧
      ∀ a, (pick g l k).1 = some a → Q a (pick f l s).2 (pick g l k).2 := by
  induction l generalizing s k with
  | nil => exact ⟨rfl,fun _ => h,fun a ha => absurd ha (Option.some_ne_none a).symm⟩
  | cons a l ih =>
    obtain ⟨hsame,hfail,hdone⟩ := hstep a s k h
    by_cases hg : (g a k).1 = true
    · rw [pick_cons_of_true (hsame.trans hg),pick_cons_of_true hg]
      exact ⟨rfl,fun hnone => absurd hnone (Option.some_ne_none a),fun b hb => Option.some.inj hb ▸ hdone hg⟩
    · rw [Bool.not_eq_true] at hg
      rw [pick_cons_of_false (hsame.trans hg),pick_cons_of_false hg]
      exact ih (hfail hg)

/-- Where a failed step leaves the state as it is, the loop finds the first element with a property. -/
theorem pick_find {p : α → Bool} {s : σ} {l : List α} (h : ∀ a ∈ l, (f a s).1 = p a ∧ (p a = false → (f a s).2 = s)) :
    (pick f l s).1 = l.find? p := by
  induction l with
  | nil => rfl
  | cons a l ih =>
    rw [List.forall_mem_cons] at h
    by_cases ha : p a = true
    · rw [pick_cons_of_true (h.1.1.trans ha),List.find?_cons_of_pos ha]
    · have hfail := Bool.eq_false_iff.mpr ha
      rw [pick_cons_of_false (h.1.1.trans hfail),h.1.2 hfail,List.find?_cons_of_neg ha]
      exact ih h.2

end Pick

section Priority

variable [LinearOrder κ]

def First (key : α → κ) (l : List α) (x : α) : Prop :=
  ∃ before after, l = before ++ x::after ∧ (∀ y ∈ before, key x < key y) ∧ ∀ y ∈ after, key x ≤ key y

variable {key : α → κ} {l l' : List α} {x x' : α}

theorem First.mem (h : First key l x) : x ∈ l := by
  obtain ⟨before,after,rfl,-⟩ := h
  exact List.mem_append_right _ List.mem_cons_self

theorem First.le (h : First key l x) {y : α} (hy : y ∈ l) : key x ≤ key y := by
  obtain ⟨before,after,rfl,hbefore,hafter⟩ := h
  rcases List.mem_append.mp hy with hy | hy
  · exact (hbefore y hy).le
  · rcases List.mem_cons.mp hy with rfl | hy
    · exact le_rfl
    · exact hafter y hy

theorem First.head (h : First key l x) : (l.filter (key · = key x)).head? = some x := by
  obtain ⟨before,after,rfl,hbefore,hafter⟩ := h
  have hnone : before.filter (key · = key x) = [] :=
    List.filter_eq_nil_iff.mpr fun y hy => by simpa using (hbefore y hy).ne'
  rw [List.filter_append,hnone,List.nil_append,List.filter_cons,if_pos (decide_eq_true rfl)]
  rfl

theorem First.unique (h : First key l x) (h' : First key l' x')
    (hsame : ∀ k, l'.filter (key · = k) = l.filter (key · = k)) : x = x' := by
  have hin : ∀ {a b : List α} {y : α}, (∀ k, a.filter (key · = k) = b.filter (key · = k)) → y ∈ a → y ∈ b :=
    fun {a b y} hab hy => List.mem_of_mem_filter (hab (key y) ▸ List.mem_filter.mpr ⟨hy,decide_eq_true rfl⟩)
  have hkey : key x = key x' :=
    le_antisymm (h.le (hin hsame h'.mem)) (h'.le (hin (fun k => (hsame k).symm) h.mem))
  have hhead := h.head
  rw [← hsame,hkey,h'.head] at hhead
  exact (Option.some.inj hhead).symm

theorem First.congr {key' : α → κ} (h : First key l x) (hkey : ∀ y ∈ l, key' y = key y) : First key' l x := by
  obtain ⟨before,after,rfl,hbefore,hafter⟩ := h
  rw [List.forall_mem_append,List.forall_mem_cons] at hkey
  refine ⟨before,after,rfl,fun y hy => ?_,fun y hy => ?_⟩
  · rw [hkey.2.1,hkey.1 y hy]
    exact hbefore y hy
  · rw [hkey.2.1,hkey.2.2 y hy]
    exact hafter y hy

theorem First.map {f : β → α} {m : List β} {y : β} (h : First (fun z => key (f z)) m y) : First key (m.map f) (f y) := by
  obtain ⟨before,after,rfl,hbefore,hafter⟩ := h
  refine ⟨before.map f,after.map f,List.map_append,?_,?_⟩
  · exact List.forall_mem_map.mpr hbefore
  · exact List.forall_mem_map.mpr hafter

/-- The first pair that fits, in the order of the classes and for each of them in that of the elements, is about the
first of the fitting elements in the order of their first class. -/
theorem find_pairs {is : List ι} {m : List α} {p : ι → α → Bool} {c : ι × α}
    (h : ((is.flatMap fun i => m.map (i,·)).find? fun c => p c.1 c.2) = some c) :
    First (fun x => is.findIdx (p · x)) (m.filter fun x => is.any (p · x)) c.2 := by
  induction is with
  | nil => cases h
  | cons i is ih =>
    have hrow : (m.map (i,·)).find? (fun c => p c.1 c.2) = (m.find? (p i)).map (i,·) := List.find?_map
    rw [List.flatMap_cons,List.find?_append,hrow] at h
    cases hfind : m.find? (p i) with
    | some x =>
      rw [hfind] at h
      obtain rfl := Option.some.inj h
      obtain ⟨hx,before,after,rfl,hbefore⟩ := List.find?_eq_some_iff_append.mp hfind
      have hzero : (i::is).findIdx (p · x) = 0 := by rw [List.findIdx_cons,hx]; rfl
      refine ⟨before.filter fun x => (i::is).any (p · x),after.filter fun x => (i::is).any (p · x),?_,fun y hy => ?_,
        fun y _ => ?_⟩
      · rw [List.filter_append,List.filter_cons_of_pos (by rw [List.any_cons,hx]; rfl)]
      · have hy := hbefore y (List.mem_of_mem_filter hy)
        rw [Bool.not_eq_true'] at hy
        have hpos : 0 < (i::is).findIdx (p · y) := by
          rw [List.findIdx_cons,hy]
          exact Nat.succ_pos _
        exact hzero.trans_lt hpos
      · exact hzero.trans_le (Nat.zero_le _)
    | none =>
      rw [hfind] at h
      rw [List.find?_eq_none] at hfind
      have hnot : ∀ y ∈ m, p i y = false := fun y hy => Bool.eq_false_iff.mpr (hfind y hy)
      have hfits : (m.filter fun x => (i::is).any (p · x)) = m.filter fun x => is.any (p · x) :=
        List.filter_congr fun y hy => by rw [List.any_cons,hnot y hy,Bool.false_or]
      obtain ⟨before,after,hsplit,hbefore,hafter⟩ := ih h
      have hsucc : ∀ y ∈ m.filter fun x => is.any (p · x), (i::is).findIdx (p · y) = is.findIdx (p · y)+1 := by
        intro y hy
        rw [List.findIdx_cons,hnot y (List.mem_of_mem_filter hy)]
        rfl
      rw [hsplit,List.forall_mem_append,List.forall_mem_cons] at hsucc
      rw [hfits]
      refine ⟨before,after,hsplit,fun y hy => ?_,fun y hy => ?_⟩
      · exact lt_of_eq_of_lt hsucc.2.1 ((Nat.succ_lt_succ (hbefore y hy)).trans_eq (hsucc.1 y hy).symm)
      · exact le_of_eq_of_le hsucc.2.1 ((Nat.succ_le_succ (hafter y hy)).trans_eq (hsucc.2.2 y hy).symm)

end Priority
end SearchLoop
end Udev
