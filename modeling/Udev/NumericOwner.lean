import Udev.AddRule
import Mathlib.Data.Nat.Digits.Defs

/-! `parse_uint` against the number that is written. It wraps at 32 bits and takes the empty string for
zero, which is then looked up as the id of a user or group. -/
namespace Udev
namespace Rules

open CString Text

def numberOf (s : CString) : ℕ := Nat.ofDigits 10 (s.reverse.map fun c => c.toNat-(chr '0').toNat)

/-- `parse_uint` takes the digits of a number of 32 bits, and nothing else. -/
def ParsesRight (s : CString) : Prop :=
  ∀ v, parseUint s = some v ↔ s ≠ [] ∧ s.all isdigit ∧ numberOf s < 2^32 ∧ v = numberOf s

/-- No number of 32 bits, but nothing except digits. -/
def NoNumber (s : CString) : Prop := s = [] ∨ s.all isdigit ∧ 2^32 ≤ numberOf s

/-- No such name is resolved to the superuser or its group. -/
def NeverRoot (a : Accounts) (s : CString) : Prop := NoNumber s → lookupUser a s ≠ some 0 ∧ lookupGroup a s ≠ some 0

section Digits

theorem numberOf_concat (s : CString) (c : UInt8) : numberOf (s ++ [c]) = numberOf s*10+(c.toNat-(chr '0').toNat) := by
  rw [numberOf,List.reverse_append,List.reverse_singleton,List.singleton_append,List.map_cons,Nat.ofDigits_cons,numberOf]
  omega

theorem foldl_numberOf (s : CString) :
    s.foldl (fun v c => (v*10+(c.toNat-(chr '0').toNat)) % 2^32) 0 = numberOf s % 2^32 := by
  induction s using List.reverseRecOn with
  | nil => rfl
  | append_singleton s c ih =>
    rw [List.foldl_append,List.foldl_cons,List.foldl_nil,ih,numberOf_concat]
    omega

theorem parseUint_digits {s : CString} (hs : s.all isdigit = true) : parseUint s = some (numberOf s % 2^32) := by
  rw [parseUint,if_pos hs,foldl_numberOf]

theorem parseUint_other {s : CString} (hs : ¬s.all isdigit = true) : parseUint s = none := if_neg hs

theorem NoNumber.digits {s : CString} (h : NoNumber s) : s.all isdigit = true :=
  h.elim (fun hnil => hnil ▸ rfl) And.left

end Digits

theorem parsesRight_iff (s : CString) : ParsesRight s ↔ ¬NoNumber s := by
  constructor
  · intro hright hno
    have hread := (hright _).mp (parseUint_digits hno.digits)
    rcases hno with hnil | ⟨-,hbig⟩
    · exact hread.1 hnil
    · exact absurd hread.2.2.1 (Nat.not_lt.mpr hbig)
  · intro hno v
    by_cases hdigits : s.all isdigit = true
    · have hne : s ≠ [] := fun hnil => hno (Or.inl hnil)
      have hlt : numberOf s < 2^32 := Nat.lt_of_not_le fun hbig => hno (Or.inr ⟨hdigits,hbig⟩)
      rw [parseUint_digits hdigits,Nat.mod_eq_of_lt hlt,Option.some_inj]
      exact ⟨fun h => ⟨hne,hdigits,hlt,h.symm⟩,fun h => h.2.2.2.symm⟩
    · rw [parseUint_other hdigits]
      exact iff_of_false (fun h => nomatch h) fun h => hdigits h.2.1

theorem lookupId_digits (byName : CString → Option ℕ) (byId : ℕ → Bool) {s : CString} (hs : s.all isdigit = true) :
    lookupId byName byId s = if byId (numberOf s % 2^32) then some (numberOf s % 2^32) else none := by
  have hroot : s ≠ str "root" := by
    rintro rfl
    exact absurd hs (by decide)
  rw [lookupId,if_neg hroot,parseUint_digits hs]

theorem lookupId_root (byName : CString → Option ℕ) (byId : ℕ → Bool) {s : CString} (hs : s.all isdigit = true) :
    lookupId byName byId s = some 0 ↔ numberOf s % 2^32 = 0 ∧ byId 0 = true := by
  rw [lookupId_digits byName byId hs]
  by_cases hid : byId (numberOf s % 2^32) = true
  · rw [if_pos hid,Option.some_inj]
    exact ⟨fun h => ⟨h,h ▸ hid⟩,And.left⟩
  · rw [if_neg hid]
    exact iff_of_false (fun h => nomatch h) fun h => hid (h.1 ▸ h.2)

theorem neverRoot_iff (a : Accounts) (s : CString) :
    NeverRoot a s ↔ ¬(NoNumber s ∧ numberOf s % 2^32 = 0 ∧ (a.getpwuid 0 = true ∨ a.getgrgid 0 = true)) := by
  constructor
  · rintro hnever ⟨hno,hzero,hroot | hroot⟩
    · exact (hnever hno).1 ((lookupId_root _ _ hno.digits).mpr ⟨hzero,hroot⟩)
    · exact (hnever hno).2 ((lookupId_root _ _ hno.digits).mpr ⟨hzero,hroot⟩)
  · intro hcond hno
    constructor
    · intro huser
      obtain ⟨hzero,hroot⟩ := (lookupId_root _ _ hno.digits).mp huser
      exact hcond ⟨hno,hzero,Or.inl hroot⟩
    · intro hgroup
      obtain ⟨hzero,hroot⟩ := (lookupId_root _ _ hno.digits).mp hgroup
      exact hcond ⟨hno,hzero,Or.inr hroot⟩

/-- The number is read right, and no name without a number is resolved to the superuser, if and only if the string is
not empty and, where it has digits only, their number has 32 bits. The superuser is what is found for multiples
of `2^32`, and for the empty string. -/
theorem parse_uint (s : CString) (a : Accounts) :
    (ParsesRight s ∧ NeverRoot a s ↔ ¬NoNumber s) ∧
    (NeverRoot a s ↔ ¬(NoNumber s ∧ numberOf s % 2^32 = 0 ∧ (a.getpwuid 0 = true ∨ a.getgrgid 0 = true))) := by
  refine ⟨?_,neverRoot_iff a s⟩
  rw [parsesRight_iff]
  exact ⟨And.left,fun hno => ⟨hno,fun h => absurd h hno⟩⟩

def rootAccounts : Accounts := { noAccounts with getpwuid := fun id => id = 0 }

theorem parse_uint_wraps : ¬∀ s a, ParsesRight s ∧ NeverRoot a s := by
  intro hall
  have hwrap : NoNumber (str "4294967296") := Or.inr (by decide)
  have huser : lookupUser rootAccounts (str "4294967296") = some 0 := by decide
  exact ((hall (str "4294967296") rootAccounts).2 hwrap).1 huser

end Rules
end Udev
