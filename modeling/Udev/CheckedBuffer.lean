import Mathlib.Data.List.Induction
import Mathlib.Data.List.TakeWhile

/-! Reads and writes that are checked against the length of the buffer: a program on a buffer
gives `none` as soon as it touches an index outside. -/
namespace Udev
namespace CheckedBuffer

variable {α : Type*}

def get (buf : List α) (i : ℕ) : Option α := buf[i]?

def put (buf : List α) (i : ℕ) (c : α) : Option (List α) := if i < buf.length then some (buf.set i c) else none

def scanFrom (p : α → Bool) : List α → ℕ → Option ℕ
  | [], _ => none
  | c::cs, i => if p c then scanFrom p cs (i+1) else some i

/-- `while (p(buf[i])) i++` -/
def scan (p : α → Bool) (buf : List α) (i : ℕ) : Option ℕ := scanFrom p (buf.drop i) i

/-- `while (p(buf[i-1])) i--`, which has no bound of its own. -/
def trim (p : α → Bool) (buf : List α) : ℕ → Option ℕ
  | 0 => none
  | i+1 => (get buf i).bind fun c => if p c then trim p buf i else some (i+1)

variable {p : α → Bool} {buf a s z : List α} {c : α} {i : ℕ}

theorem get_append (hbuf : buf = a ++ c::z) (hi : i = a.length) : get buf i = some c := by
  subst hbuf hi
  simp [get]

theorem put_append (hbuf : buf = a ++ c::z) (hi : i = a.length) (b : α) :
    put buf i b = some (a ++ b::z) := by
  subst hbuf hi
  simp [put]

theorem put_length {b : List α} (h : put buf i c = some b) : b.length = buf.length := by
  rw [put] at h
  split_ifs at h
  rw [← Option.some.inj h,List.length_set]

theorem scanFrom_append (hs : ∀ x ∈ s, p x = true) (hc : p c = false) (i : ℕ) :
    scanFrom p (s ++ c::z) i = some (i+s.length) := by
  induction s generalizing i with
  | nil => simp [scanFrom,hc]
  | cons b s ih =>
    rw [List.cons_append,scanFrom,if_pos (hs b List.mem_cons_self),
      ih (fun x hx => hs x (List.mem_cons_of_mem _ hx)),List.length_cons]
    congr 1
    omega

theorem scan_append (hbuf : buf = a ++ (s ++ c::z)) (hi : i = a.length) (hs : ∀ x ∈ s, p x = true)
    (hc : p c = false) : scan p buf i = some (i+s.length) := by
  subst hbuf hi
  rw [scan,List.drop_left]
  exact scanFrom_append hs hc _

theorem trim_append (hbuf : buf = a ++ c::(s ++ z)) (hi : i = a.length+1+s.length)
    (hs : ∀ x ∈ s, p x = true) (hc : p c = false) : trim p buf i = some (a.length+1) := by
  induction s using List.reverseRecOn generalizing z i with
  | nil =>
    subst hi
    rw [List.length_nil,Nat.add_zero,trim,get_append hbuf rfl,Option.bind_some,hc]
    rfl
  | append_singleton s b ih =>
    rw [List.length_append,List.length_singleton,← Nat.add_assoc] at hi
    subst hi
    have hget : get buf (a.length+1+s.length) = some b := by
      refine get_append (a := a ++ c::s) (z := z) ?_ ?_
      · rw [hbuf]
        simp
      · simp
        omega
    rw [trim,hget,Option.bind_some,if_pos (hs b (by simp))]
    exact ih (z := b::z) (by rw [hbuf]; simp) rfl fun x hx => hs x (List.mem_append_left _ hx)

/-- A scan that comes to an end read only bytes that pass the test, up to the one at the end. -/
theorem scan_eq_some {e : ℕ} (h : scan p buf i = some e) :
    ∃ s c z, buf.drop i = s ++ c::z ∧ e = i+s.length ∧ (∀ x ∈ s, p x = true) ∧ p c = false := by
  have hfrom : ∀ (l : List α) (i : ℕ), scanFrom p l i = some e →
      ∃ s c z, l = s ++ c::z ∧ e = i+s.length ∧ (∀ x ∈ s, p x = true) ∧ p c = false := by
    intro l
    induction l with
    | nil =>
      intro i h
      cases h
    | cons b l ih =>
      intro i h
      rw [scanFrom] at h
      split_ifs at h with hb
      · obtain ⟨s,c,z,rfl,rfl,hs,hc⟩ := ih (i+1) h
        refine ⟨b::s,c,z,rfl,?_,?_,hc⟩
        · rw [List.length_cons]
          omega
        · exact List.forall_mem_cons.mpr ⟨hb,hs⟩
      · exact ⟨[],b,l,rfl,(Option.some.inj h).symm,by simp,by simpa using hb⟩
  exact hfrom _ i h

/-- A scan ends inside if and only if a byte of the rest fails the test. -/
theorem scan_isSome : (scan p buf i).isSome ↔ (buf.drop i).dropWhile p ≠ [] := by
  have hfrom : ∀ (l : List α) (i : ℕ), (scanFrom p l i).isSome ↔ l.dropWhile p ≠ [] := by
    intro l
    induction l with
    | nil => simp [scanFrom]
    | cons b l ih =>
      intro i
      rw [scanFrom]
      by_cases hb : p b = true
      · rw [if_pos hb,List.dropWhile_cons_of_pos hb]
        exact ih (i+1)
      · rw [if_neg hb,List.dropWhile_cons_of_neg hb]
        simp
  exact hfrom _ i

/-! A C string in the buffer. -/

section Strings

variable {buf a k z : List UInt8} {i : ℕ}

def stringAt (buf : List UInt8) (i : ℕ) : Option (List UInt8) :=
  (scan (· ≠ 0) buf i).map fun e => (buf.take e).drop i

theorem scan_string (hbuf : buf = a ++ (k ++ 0::z)) (hi : i = a.length) (hk : 0 ∉ k) :
    scan (· ≠ 0) buf i = some (i+k.length) := by
  apply scan_append hbuf hi _ rfl
  intro x hx
  rw [decide_eq_true_iff]
  rintro rfl
  exact hk hx

theorem stringAt_append (hbuf : buf = a ++ (k ++ 0::z)) (hi : i = a.length) (hk : 0 ∉ k) :
    stringAt buf i = some k := by
  rw [stringAt,scan_string hbuf hi hk,Option.map_some,hbuf,hi]
  simp [List.take_append]

theorem stringAt_eq_some (h : stringAt buf i = some k) : 0 ∉ k ∧ ∃ z, buf.drop i = k ++ 0::z := by
  obtain ⟨e,he,rfl⟩ := Option.map_eq_some_iff.mp h
  obtain ⟨s,c,z,hdrop,rfl,hs,hc⟩ := scan_eq_some he
  have hc0 : c = 0 := by simpa using hc
  have hk : (buf.take (i+s.length)).drop i = s := by
    rw [List.drop_take,hdrop,Nat.add_sub_cancel_left,List.take_left]
  rw [hk]
  constructor
  · intro h0
    simpa using hs 0 h0
  · exact ⟨z,by rw [hdrop,hc0]⟩

theorem stringAt_eq_none : stringAt buf i = none ↔ 0 ∉ buf.drop i := by
  rw [stringAt,Option.map_eq_none_iff,← Option.not_isSome_iff_eq_none,scan_isSome,not_not,List.dropWhile_eq_nil_iff]
  constructor
  · intro h h0
    simpa using h 0 h0
  · intro h x hx
    rw [decide_eq_true_iff]
    rintro rfl
    exact h hx

end Strings

end CheckedBuffer
end Udev
