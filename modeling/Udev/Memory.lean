import Udev.CString
import Mathlib.Algebra.Ring.Nat
import Mathlib.Data.List.GetD
import Mathlib.Logic.Function.Basic

/-! Memory from the begin of a buffer on. What a program puts behind the end of its buffer
is part of the memory, so that it can be told which bytes were touched. -/
namespace Udev

open CString

abbrev Memory := ℕ → UInt8

namespace Memory

/-- The bytes from a place on up to a `NUL`, at most `n`. -/
def textFrom (m : Memory) : ℕ → ℕ → CString
  | _, 0 => []
  | i, n+1 => if m i = 0 then [] else m i::textFrom m (i+1) n

def text (m : Memory) (size : ℕ) : CString := textFrom m 0 size

/-- A string with its terminator is copied to a place. -/
def store (m : Memory) (pos : ℕ) (s : CString) : Memory := fun i =>
  if pos ≤ i ∧ i ≤ pos+s.length then charAt s (i-pos) else m i

def Holds (m : Memory) (s : CString) : Prop := ∀ i, i < s.length → m i = charAt s i

theorem holds_nil (m : Memory) : Holds m [] := fun _ h => absurd h (Nat.not_lt_zero _)

theorem charAt_of_le {s : CString} {i : ℕ} (h : s.length ≤ i) : charAt s i = 0 := List.getD_eq_default _ _ h

theorem charAt_length (s : CString) : charAt s s.length = 0 := charAt_of_le le_rfl

theorem charAt_mem {s : CString} {i : ℕ} (hi : i < s.length) : charAt s i ∈ s := by
  rw [charAt,List.getD_eq_getElem s 0 hi]
  exact List.getElem_mem hi

theorem charAt_append_left {s : CString} {i : ℕ} (h : i < s.length) (t : CString) :
    charAt (s ++ t) i = charAt s i := by
  simp [charAt,List.getElem?_append_left h]

theorem charAt_append_right (s t : CString) (i : ℕ) : charAt (s ++ t) (s.length+i) = charAt t i := by
  rw [charAt,charAt,List.getD_eq_getElem?_getD,List.getD_eq_getElem?_getD,
    List.getElem?_append_right (Nat.le_add_right _ _),Nat.add_sub_cancel_left]

theorem charAt_takeWhile (s : CString) {i : ℕ} (hi : i ≤ (s.takeWhile (· ≠ 0)).length) :
    charAt s i = charAt (s.takeWhile (· ≠ 0)) i := by
  induction s generalizing i with
  | nil => rfl
  | cons c s ih =>
    by_cases hc : c = 0
    · rw [List.takeWhile_cons_of_neg (by simpa using hc)] at hi ⊢
      obtain rfl := Nat.le_zero.mp hi
      exact hc
    · rw [List.takeWhile_cons_of_pos (by simpa using hc)] at hi ⊢
      cases i with
      | zero => rfl
      | succ i => exact ih (Nat.le_of_succ_le_succ hi)

theorem store_at (m : Memory) (pos : ℕ) (s : CString) {i : ℕ} (h : i ≤ s.length) :
    store m pos s (pos+i) = charAt s i := by
  rw [store,if_pos (by omega),Nat.add_sub_cancel_left]

theorem store_of_lt (m : Memory) {pos i : ℕ} (s : CString) (h : i < pos) : store m pos s i = m i :=
  if_neg (by omega)

theorem store_end (m : Memory) (pos : ℕ) (s : CString) : store m pos s (pos+s.length) = 0 := by
  rw [store_at m pos s le_rfl,charAt_length]

theorem store_append (m : Memory) (pos : ℕ) (s t : CString) :
    (m.store pos s).store (pos+s.length) t = m.store pos (s ++ t) := by
  funext i
  by_cases hlow : i < pos
  · rw [store_of_lt _ _ (by omega),store_of_lt _ _ hlow,store_of_lt _ _ hlow]
  · obtain ⟨j,rfl⟩ := Nat.exists_eq_add_of_le (Nat.le_of_not_lt hlow)
    by_cases hfirst : j < s.length
    · rw [store_of_lt _ _ (by omega),store_at _ _ _ hfirst.le,store_at _ _ _ (by rw [List.length_append]; omega),
        charAt_append_left hfirst]
    · obtain ⟨k,rfl⟩ := Nat.exists_eq_add_of_le (Nat.le_of_not_lt hfirst)
      by_cases hsecond : k ≤ t.length
      · rw [← Nat.add_assoc,store_at _ _ _ hsecond,Nat.add_assoc,
          store_at _ _ _ (by rw [List.length_append]; omega),charAt_append_right]
      · unfold store
        rw [List.length_append,if_neg (by omega),if_neg (by omega),if_neg (by omega)]

theorem Holds.left {m : Memory} {s t : CString} (h : Holds m (s ++ t)) : Holds m s := by
  intro i hi
  rw [h i (by rw [List.length_append]; omega),charAt_append_left hi]

theorem Holds.last {m : Memory} {s : CString} {c : UInt8} (h : Holds m (s ++ [c])) : m s.length = c := by
  rw [h _ (by rw [List.length_append,List.length_singleton]; exact Nat.lt_succ_self _)]
  exact charAt_append_right s [c] 0

theorem Holds.store {m : Memory} {s : CString} (h : Holds m s) (t : CString) :
    Holds (m.store s.length t) (s ++ t) := by
  intro i hi
  rw [List.length_append] at hi
  by_cases hlt : i < s.length
  · rw [store_of_lt m t hlt,charAt_append_left hlt,h i hlt]
  · obtain ⟨j,rfl⟩ := Nat.exists_eq_add_of_le (Nat.le_of_not_lt hlt)
    rw [store_at m s.length t (by omega),charAt_append_right]

theorem Holds.put {m : Memory} {s : CString} (h : Holds m s) (c : UInt8) :
    Holds (Function.update m s.length c) (s ++ [c]) := by
  intro i hi
  rw [List.length_append,List.length_singleton] at hi
  by_cases hlt : i < s.length
  · rw [Function.update_of_ne (Nat.ne_of_lt hlt),charAt_append_left hlt,h i hlt]
  · obtain rfl : i = s.length := by omega
    rw [Function.update_self]
    exact (charAt_append_right s [c] 0).symm

/-- A string that is in memory up to its terminator, or to the end of what is read. -/
theorem textFrom_take {m : Memory} {s : CString} {pos n : ℕ} (h : ∀ i, i < n → i ≤ s.length → m (pos+i) = charAt s i)
    (hnul : 0 ∉ s) : m.textFrom pos n = s.take n := by
  induction n generalizing s pos with
  | zero => rfl
  | succ n ih =>
    have hfirst : m pos = charAt s 0 := h 0 (Nat.succ_pos n) (Nat.zero_le _)
    cases s with
    | nil =>
      rw [textFrom,List.take_nil]
      exact if_pos hfirst
    | cons c s =>
      rw [List.mem_cons,not_or] at hnul
      have hrest : m.textFrom (pos+1) n = s.take n := by
        refine ih (fun i hi hle => ?_) hnul.2
        rw [Nat.add_assoc,Nat.add_comm 1,h (i+1) (Nat.succ_lt_succ hi) (Nat.succ_le_succ hle)]
        rfl
      rw [textFrom,hfirst,hrest]
      exact if_neg (Ne.symm hnul.1)

theorem textFrom_nul (m : Memory) (pos n : ℕ) : 0 ∉ m.textFrom pos n := by
  induction n generalizing pos with
  | zero => exact List.not_mem_nil
  | succ n ih =>
    rw [textFrom]
    by_cases hend : m pos = 0
    · rw [if_pos hend]
      exact List.not_mem_nil
    · rw [if_neg hend,List.mem_cons,not_or]
      exact ⟨Ne.symm hend,ih (pos+1)⟩

section At

def HoldsAt (m : Memory) (pos : ℕ) (s : CString) : Prop := ∀ k, k < s.length → m (pos+k) = charAt s k

variable {m : Memory} {pos n : ℕ} {s t : CString}

theorem HoldsAt.head {c : UInt8} (h : HoldsAt m pos (c::s)) : m pos = c :=
  h 0 (Nat.succ_pos _)

theorem HoldsAt.right (h : HoldsAt m pos (t ++ s)) : HoldsAt m (pos+t.length) s := by
  intro k hk
  rw [Nat.add_assoc,h _ (by rw [List.length_append]; omega),charAt_append_right]

theorem HoldsAt.left (h : HoldsAt m pos (t ++ s)) : HoldsAt m pos t := by
  intro k hk
  rw [h k (by rw [List.length_append]; omega),charAt_append_left hk]

theorem HoldsAt.tail {c : UInt8} (h : HoldsAt m pos (c::s)) : HoldsAt m (pos+1) s :=
  HoldsAt.right (t := [c]) h

theorem HoldsAt.congr {m' : Memory} (h : HoldsAt m pos s) (hm : ∀ i, pos ≤ i → i < pos+s.length → m' i = m i) : HoldsAt m' pos s :=
  fun k hk => (hm (pos+k) (Nat.le_add_right _ _) (by omega)).trans (h k hk)

theorem HoldsAt.update {i : ℕ} (h : HoldsAt m pos s) (hi : i < pos ∨ pos+s.length ≤ i) (c : UInt8) :
    HoldsAt (Function.update m i c) pos s :=
  h.congr fun _ hle hlt => Function.update_of_ne (by omega) _ _

theorem HoldsAt.cons {c : UInt8} (hc : m pos = c) (h : HoldsAt m (pos+1) s) : HoldsAt m pos (c::s) := by
  intro k hk
  cases k with
  | zero => exact hc
  | succ k =>
    rw [Nat.add_comm k,← Nat.add_assoc,h k (Nat.lt_of_succ_lt_succ hk),Nat.add_comm 1]
    rfl

theorem holdsAt_textFrom (m : Memory) (pos n : ℕ) :
    HoldsAt m pos (m.textFrom pos n) ∧ (m.textFrom pos n).length ≤ n := by
  induction n generalizing pos with
  | zero => exact ⟨fun k hk => absurd hk (Nat.not_lt_zero k),le_rfl⟩
  | succ n ih =>
    rw [textFrom]
    by_cases hend : m pos = 0
    · rw [if_pos hend]
      exact ⟨fun k hk => absurd hk (Nat.not_lt_zero k),Nat.zero_le _⟩
    · rw [if_neg hend]
      refine ⟨fun k hk => ?_,Nat.succ_le_succ (ih (pos+1)).2⟩
      cases k with
      | zero => rfl
      | succ k =>
        rw [Nat.add_comm k,← Nat.add_assoc,(ih (pos+1)).1 k (Nat.lt_of_succ_lt_succ hk),Nat.add_comm 1]
        rfl

theorem HoldsAt.textFrom (h : HoldsAt m pos s) (hnul : 0 ∉ s) : m.textFrom pos s.length = s :=
  (textFrom_take (fun i hi _ => h i hi) hnul).trans List.take_length

theorem textFrom_eq (h : HoldsAt m pos s) (hend : m (pos+s.length) = 0) (hnul : 0 ∉ s) (hlen : s.length < n) :
    m.textFrom pos n = s := by
  have htake : m.textFrom pos n = s.take n := by
    refine textFrom_take (fun i _ hi => ?_) hnul
    rcases hi.lt_or_eq with hlt | rfl
    · exact h i hlt
    · rw [hend,charAt_length]
  rw [htake,List.take_of_length_le hlen.le]

theorem textFrom_lt {i : ℕ} (hi : i < n) (hend : m (pos+i) = 0) : (m.textFrom pos n).length < n := by
  obtain ⟨hm,hle⟩ := holdsAt_textFrom m pos n
  refine lt_of_le_of_ne hle fun hlen => textFrom_nul m pos n ?_
  rw [← hlen] at hi
  rw [← hend,hm i hi]
  exact charAt_mem hi

end At

theorem Holds.text {m : Memory} {s : CString} {size : ℕ} (h : Holds m s) (hend : m s.length = 0)
    (hnul : 0 ∉ s) (hlen : s.length < size) : m.text size = s :=
  textFrom_eq (fun j hj => by rw [Nat.zero_add,h j hj]) (by rw [Nat.zero_add,hend]) hnul hlen

section Write

def write (m : Memory) (pos : ℕ) (s : CString) : Memory := fun i =>
  if pos ≤ i ∧ i < pos+s.length then charAt s (i-pos) else m i

variable (m : Memory) (pos : ℕ)

theorem write_nil : write m pos [] = m := funext fun i => if_neg (by rw [List.length_nil]; omega)

theorem write_at {s : CString} {i : ℕ} (h : i < s.length) : write m pos s (pos+i) = charAt s i := by
  rw [write,if_pos (by omega),Nat.add_sub_cancel_left]

theorem write_of_not {i : ℕ} {s : CString} (h : i < pos ∨ pos+s.length ≤ i) : write m pos s i = m i := if_neg (by omega)

theorem update_write (s : CString) (c : UInt8) :
    Function.update (write m pos s) (pos+s.length) c = write m pos (s ++ [c]) := by
  funext i
  by_cases hi : i = pos+s.length
  · subst hi
    have hin : pos ≤ pos+s.length ∧ pos+s.length < pos+(s ++ [c]).length := by
      rw [List.length_append,List.length_singleton]
      omega
    rw [Function.update_self,write,if_pos hin,Nat.add_sub_cancel_left]
    exact (charAt_append_right s [c] 0).symm
  · rw [Function.update_of_ne hi,write,write,List.length_append,List.length_singleton]
    by_cases hin : pos ≤ i ∧ i < pos+s.length
    · rw [if_pos hin,if_pos (by omega),charAt_append_left (by omega)]
    · rw [if_neg hin,if_neg (by omega)]

theorem store_eq_write (s : CString) : store m pos s = write m pos (s ++ [0]) := by
  funext i
  rw [store,write,List.length_append,List.length_singleton]
  by_cases hin : pos ≤ i ∧ i ≤ pos+s.length
  · rw [if_pos hin,if_pos (by omega)]
    by_cases hlast : i = pos+s.length
    · rw [hlast,Nat.add_sub_cancel_left,charAt_length]
      exact (charAt_append_right s [0] 0).symm
    · rw [charAt_append_left (by omega)]
  · rw [if_neg hin,if_neg (by omega)]

end Write

/-- A memory that is written byte by byte: the next place, and the places that were written. -/
structure Cursor where
  mem : Memory
  pos : ℕ
  writes : List ℕ

namespace Cursor

def start (mem : Memory) : Cursor := ⟨mem,0,[]⟩

def put (w : Cursor) (c : UInt8) : Cursor :=
  { mem := Function.update w.mem w.pos c, pos := w.pos+1, writes := w.writes ++ [w.pos] }

theorem foldl_put (s : CString) (w : Cursor) :
    s.foldl put w = ⟨w.mem.write w.pos s,w.pos+s.length,w.writes ++ List.range' w.pos s.length⟩ := by
  induction s using List.reverseRecOn with
  | nil =>
    rw [write_nil,List.length_nil,List.range'_zero,List.append_nil]
    rfl
  | append_singleton s c ih =>
    rw [List.foldl_concat,ih,put,List.length_append,List.length_singleton]
    dsimp only
    rw [update_write,List.range'_concat,Nat.one_mul,List.append_assoc,Nat.add_assoc]

/-- From the begin on, the bytes of a string were written, each once, and behind them is what was there before. -/
structure Filled (mem : Memory) (w : Cursor) (s : CString) : Prop where
  holds : w.mem.Holds s
  pos : w.pos = s.length
  writes : w.writes = List.range s.length
  rest : ∀ i, s.length ≤ i → w.mem i = mem i

variable {mem : Memory} {w : Cursor} {s : CString}

theorem filled_start (mem : Memory) : Filled mem (start mem) [] := ⟨holds_nil mem,rfl,rfl,fun _ _ => rfl⟩

theorem Filled.put (h : Filled mem w s) (c : UInt8) : Filled mem (w.put c) (s ++ [c]) := by
  have hlen : (s ++ [c]).length = s.length+1 := by rw [List.length_append,List.length_singleton]
  constructor
  · rw [Cursor.put,h.pos]
    exact h.holds.put c
  · rw [hlen,← h.pos]
    rfl
  · rw [hlen,List.range_succ,← h.writes,← h.pos]
    rfl
  · intro i hi
    rw [hlen] at hi
    have hne : i ≠ w.pos := by
      rw [h.pos]
      omega
    exact (Function.update_of_ne hne c w.mem).trans (h.rest i (by omega))

theorem Filled.puts (h : Filled mem w s) (t : CString) : Filled mem (t.foldl Cursor.put w) (s ++ t) := by
  induction t generalizing w s with
  | nil =>
    rw [List.append_nil]
    exact h
  | cons c t ih =>
    rw [List.foldl_cons,← List.singleton_append,← List.append_assoc]
    exact ih (h.put c)

theorem Filled.look_back {c : UInt8} (h : Filled mem w (s ++ [c])) : w.mem (w.pos-1) = c := by
  rw [h.pos,List.length_append,List.length_singleton,Nat.add_sub_cancel]
  exact h.holds.last

theorem Filled.terminate (h : Filled mem w s) :
    (w.put 0).mem.Holds s ∧ (w.put 0).mem s.length = 0 ∧ (w.put 0).writes = List.range (s.length+1) := by
  have hput := h.put 0
  constructor
  · exact hput.holds.left
  constructor
  · rw [Cursor.put,h.pos]
    exact Function.update_self ..
  · rw [hput.writes,List.length_append,List.length_singleton]

end Cursor
end Memory
end Udev
