import Mathlib.Data.List.Basic
import Mathlib.Data.List.Infix

/-! C strings as the bytes before the terminator, and the `string.h` and
`ctype.h` calls of the daemon on them. A byte past the end reads as `NUL`. -/
namespace Udev

abbrev CString := List UInt8

instance : LawfulBEq CString := inferInstance

/-- The bytes of a literal of the source; all of them are ASCII. -/
def str (s : String) : CString := s.toList.map fun c => c.toNat.toUInt8

def chr (c : Char) : UInt8 := c.toNat.toUInt8

namespace CString

theorem forall_byte {p : UInt8 → Prop} (h : ∀ n : Fin 256, p (UInt8.ofNat n)) (c : UInt8) : p c := by
  have hc := h ⟨c.toNat,c.toNat_lt⟩
  rwa [UInt8.ofNat_toNat] at hc

/-- `s[i]`; the byte at the length is the terminator. -/
def charAt (s : CString) (i : ℕ) : UInt8 := s.getD i 0

def isspace (c : UInt8) : Bool := c == chr ' ' || (9 ≤ c && c ≤ 13)

def isblank (c : UInt8) : Bool := c == chr ' ' || c == 9

def isdigit (c : UInt8) : Bool := chr '0' ≤ c && c ≤ chr '9'

def strchr (s : CString) (c : UInt8) : Option CString :=
  match s with
  | [] => none
  | b::bs => if b = c then some (b::bs) else strchr bs c

theorem strchr_eq_none {s : CString} {c : UInt8} (h : c ∉ s) : strchr s c = none := by
  induction s with
  | nil => rfl
  | cons b s ih =>
    rw [List.mem_cons,not_or] at h
    rw [strchr,if_neg (Ne.symm h.1),ih h.2]

theorem strchr_append {s : CString} {c : UInt8} (h : c ∉ s) (rest : CString) :
    strchr (s ++ c::rest) c = some (c::rest) := by
  induction s with
  | nil => simp [strchr]
  | cons b s ih =>
    rw [List.mem_cons,not_or] at h
    rw [List.cons_append,strchr,if_neg (Ne.symm h.1),ih h.2]

theorem strchr_isSome {s : CString} {c : UInt8} : (strchr s c).isSome = true ↔ c ∈ s := by
  induction s with
  | nil => simp [strchr]
  | cons b s ih =>
    by_cases h : b = c
    · simp [strchr,h]
    · rw [strchr,if_neg h,ih,List.mem_cons]
      exact ⟨Or.inr,fun hor => hor.resolve_left (Ne.symm h)⟩

theorem strchr_eq_some {s t : CString} {c : UInt8} (h : strchr s c = some t) :
    s = s.takeWhile (· ≠ c) ++ t ∧ ∃ r, t = c::r := by
  induction s with
  | nil => cases h
  | cons b s ih =>
    rw [strchr] at h
    split_ifs at h with hb
    · obtain rfl := Option.some.inj h
      exact ⟨by simp [hb],s,by rw [hb]⟩
    · obtain ⟨hs,hr⟩ := ih h
      refine ⟨?_,hr⟩
      rw [List.takeWhile_cons_of_pos (by simpa using hb),List.cons_append]
      exact congrArg _ hs

theorem takeWhile_ne {s : CString} {c : UInt8} (h : c ∉ s) (z : CString) : (s ++ c::z).takeWhile (· ≠ c) = s := by
  rw [List.takeWhile_append_of_pos,List.takeWhile_cons_of_neg (by simp),List.append_nil]
  intro b hb
  rw [decide_eq_true_iff]
  exact ne_of_mem_of_not_mem hb h

theorem drop_behind (s : CString) (c : UInt8) (z : CString) : (s ++ c::z).drop (s.length+1) = z := by
  rw [← List.drop_drop,List.drop_left]
  rfl

def startswith (s pre : CString) : Bool := pre.isPrefixOf s

def strstr (s needle : CString) : Option CString :=
  match s with
  | [] => if needle = [] then some [] else none
  | b::bs => if needle.isPrefixOf (b::bs) then some (b::bs) else strstr bs needle

theorem strstr_isSome {s needle : CString} : (strstr s needle).isSome ↔ needle <:+: s := by
  induction s with
  | nil => by_cases h : needle = [] <;> simp [strstr,h]
  | cons b s ih =>
    rw [strstr,List.infix_cons_iff,← ih]
    by_cases h : needle.isPrefixOf (b::s) = true
    · rw [if_pos h]
      exact iff_of_true rfl (Or.inl (List.isPrefixOf_iff_prefix.mp h))
    · rw [if_neg h]
      exact ⟨Or.inr,fun hor => hor.resolve_left fun hpre => h (List.isPrefixOf_iff_prefix.mpr hpre)⟩

theorem strstr_eq_some {s needle t : CString} (h : strstr s needle = some t) :
    ∃ pre, s = pre ++ t ∧ needle <+: t ∧
      ∀ pre' t', s = pre' ++ t' → needle <+: t' → pre.length ≤ pre'.length := by
  induction s with
  | nil =>
    rw [strstr] at h
    split_ifs at h with hnil
    obtain rfl := Option.some.inj h
    exact ⟨[],rfl,hnil ▸ List.nil_prefix,fun _ _ _ _ => Nat.zero_le _⟩
  | cons b s ih =>
    rw [strstr] at h
    split_ifs at h with hpre
    · obtain rfl := Option.some.inj h
      exact ⟨[],rfl,List.isPrefixOf_iff_prefix.mp hpre,fun _ _ _ _ => Nat.zero_le _⟩
    · obtain ⟨pre,rfl,hneedle,hmin⟩ := ih h
      refine ⟨b::pre,rfl,hneedle,?_⟩
      intro pre' t' heq hneedle'
      cases pre' with
      | nil =>
        rw [List.nil_append] at heq
        exact absurd (List.isPrefixOf_iff_prefix.mpr (heq ▸ hneedle')) hpre
      | cons c pre' =>
        obtain ⟨-,heq⟩ := List.cons.inj heq
        exact Nat.succ_le_succ (hmin pre' t' heq hneedle')

end CString
end Udev
