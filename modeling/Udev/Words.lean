import Mathlib.Data.List.Basic
import Mathlib.Data.List.Infix
import Mathlib.Data.List.TakeWhile

/-! Texts of words that each end with a delimiter, and the reading of such a text in blocks.
A reader that holds two blocks finds the words that fit: those that end before the block
after the next one begins. -/
namespace Udev
namespace Words

variable {α : Type*} {p : α → Prop} {d : α}

def text (d : α) (ws : List (List α)) : List α := ws.flatMap (· ++ [d])

@[simp] theorem text_nil : text d [] = [] := rfl

@[simp] theorem text_cons (w : List α) (ws : List (List α)) : text d (w::ws) = w ++ d::text d ws := by
  simp [text]

@[simp] theorem text_append (ws ws' : List (List α)) : text d (ws ++ ws') = text d ws ++ text d ws' := by
  simp [text]

theorem text_replicate_nil (n : ℕ) : text d (List.replicate n []) = List.replicate n d := by
  induction n with
  | zero => rfl
  | succ n ih => rw [List.replicate_succ,text_cons,ih,List.replicate_succ,List.nil_append]

theorem length_text_cons (w : List α) (ws : List (List α)) :
    (text d (w::ws)).length = w.length+1+(text d ws).length := by
  rw [text_cons,List.length_append,List.length_cons]
  omega

theorem length_le_text {ws : List (List α)} {w : List α} (h : w ∈ ws) : w.length < (text d ws).length := by
  induction ws with
  | nil => exact absurd h List.not_mem_nil
  | cons v ws ih =>
    rw [length_text_cons]
    rcases List.mem_cons.mp h with rfl | h
    · omega
    · have := ih h
      omega

/-- A part of a text from its begin on: whole words, and the begin of the next one. -/
theorem exists_take_text {ws : List (List α)} (h : ∀ w ∈ ws, ∀ a ∈ w, p a) (n : ℕ) :
    ∃ found t left, ws = found ++ left ∧ (text d ws).take n = text d found ++ t ∧
      t ++ (text d ws).drop n = text d left ∧ ∀ a ∈ t, p a := by
  induction ws generalizing n with
  | nil => exact ⟨[],[],[],rfl,by simp,by simp,by simp⟩
  | cons w ws ih =>
    by_cases hn : n ≤ w.length
    · refine ⟨[],w.take n,w::ws,rfl,?_,?_,?_⟩
      · rw [text_cons,List.take_append_of_le_length hn,text_nil,List.nil_append]
      · rw [text_cons,List.drop_append_of_le_length hn,← List.append_assoc,List.take_append_drop]
      · intro a ha
        exact h w List.mem_cons_self a (List.mem_of_mem_take ha)
    · obtain ⟨found,t,left,hws,htake,hdrop,ht⟩ :=
        ih (fun v hv => h v (List.mem_cons_of_mem _ hv)) (n-(w.length+1))
      have hsplit : n = (w ++ [d]).length+(n-(w.length+1)) := by
        rw [List.length_append,List.length_singleton]
        omega
      have htext : text d (w::ws) = (w ++ [d]) ++ text d ws := by simp
      refine ⟨w::found,t,left,congrArg (w::·) hws,?_,?_,ht⟩
      · rw [htext,hsplit,List.take_length_add_append,htake]
        simp
      · rw [htext,hsplit,List.drop_length_add_append,hdrop]

section Blocks

/-- The word at a position of the text ends before the block after the next one. -/
def Fits (block pos : ℕ) (w : List α) : Prop := pos%block+w.length < 2*block

instance (block pos : ℕ) (w : List α) : Decidable (Fits block pos w) := Nat.decLt _ _

/-- The words from a position of the text on, up to the first one that does not fit. -/
def fitting (block : ℕ) : ℕ → List (List α) → List (List α)
  | _, [] => []
  | pos, w::ws => if Fits block pos w then w::fitting block (pos+w.length+1) ws else []

theorem fits_congr {block pos pos' : ℕ} (h : pos%block = pos'%block) (w : List α) :
    Fits block pos w ↔ Fits block pos' w := by rw [Fits,Fits,h]

theorem fitting_congr {block pos pos' : ℕ} (h : pos%block = pos'%block) (ws : List (List α)) :
    fitting block pos ws = fitting block pos' ws := by
  induction ws generalizing pos pos' with
  | nil => rfl
  | cons w ws ih =>
    have hnext : (pos+w.length+1)%block = (pos'+w.length+1)%block := by
      rw [Nat.add_assoc,Nat.add_assoc,Nat.add_mod,h,← Nat.add_mod]
    simp only [fitting,fits_congr h,ih hnext]

theorem fitting_initial (block pos : ℕ) (ws : List (List α)) : fitting block pos ws <+: ws := by
  induction ws generalizing pos with
  | nil => exact List.prefix_rfl
  | cons w ws ih =>
    rw [fitting]
    split_ifs
    · exact (List.prefix_cons_inj w).mpr (ih _)
    · exact List.nil_prefix

theorem fitting_eq_self {block : ℕ} {ws : List (List α)} (h : ∀ w ∈ ws, w.length < block) (pos : ℕ) :
    fitting block pos ws = ws := by
  induction ws generalizing pos with
  | nil => rfl
  | cons w ws ih =>
    have hlt := h w List.mem_cons_self
    have hmod := Nat.mod_lt pos (Nat.zero_lt_of_lt hlt)
    rw [fitting,if_pos (show Fits block pos w by unfold Fits; omega),ih fun v hv => h v (List.mem_cons_of_mem _ hv)]

theorem fitting_append {block pos : ℕ} {found left : List (List α)} (hend : pos+(text d found).length ≤ 2*block) :
    fitting block pos (found ++ left) = found ++ fitting block (pos+(text d found).length) left := by
  induction found generalizing pos with
  | nil => simp
  | cons w found ih =>
    rw [length_text_cons] at hend ⊢
    have hmod := Nat.mod_le pos block
    have hfits : Fits block pos w := by
      unfold Fits
      omega
    rw [List.cons_append,fitting,if_pos hfits,ih (by omega),List.cons_append,
      show pos+w.length+1+(text d found).length = pos+(w.length+1+(text d found).length) by omega]

end Blocks

end Words
end Udev
