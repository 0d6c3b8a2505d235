import Udev.CheckedBuffer
import Udev.Utf8

/-! `utf8_encoded_valid_unichar` with the `int` that it returns. The buffer is the string with its
terminator; a look behind the terminator gives `none`. -/
namespace Udev
namespace Utf8Reads

open CString CheckedBuffer Memory Text

/-- `-EINVAL` -/
def einval : ℤ := -22

/-- The loop of `utf8_encoded_to_unichar` for the `n` bytes from `i` on. -/
def unicharLoop (buf : List UInt8) : ℕ → ℕ → ℕ → Option ℤ
  | 0, _, unichar => some unichar
  | n+1, i, unichar =>
    (get buf i).bind fun c =>
      if c &&& 0xc0 ≠ 0x80 then some einval else unicharLoop buf n (i+1) (unichar*64+c.toNat%64)

/-- `utf8_encoded_to_unichar`; the lead byte of a sequence of `len` bytes keeps `7-len` bits. -/
def encodedToUnichar (buf : List UInt8) : Option ℤ :=
  (get buf 0).bind fun c =>
    let len := utf8EncodedExpectedLen c
    if len = 1 then some c.toNat
    else if len = 0 then some einval
    else unicharLoop buf (len-1) 1 (c.toNat % 2^(7-len))

/-- `utf8_unichar_to_encoded_len`; a negative value is below every bound. -/
def unicharToEncodedLen (unichar : ℤ) : ℕ :=
  if unichar < 0x80 then 1
  else if unichar < 0x800 then 2
  else if unichar < 0x10000 then 3
  else if unichar < 0x200000 then 4
  else if unichar < 0x4000000 then 5
  else 6

/-- The loop that tests the high bits of the `n` bytes from `i` on. -/
def highLoop (buf : List UInt8) : ℕ → ℕ → Option Bool
  | 0, _ => some true
  | n+1, i => (get buf i).bind fun c => if c &&& 0x80 ≠ 0x80 then some false else highLoop buf n (i+1)

/-- The tests of the decoded value in `utf8_encoded_valid_unichar`. -/
def testUnichar (len : ℕ) (unichar : ℤ) : ℤ :=
  if unicharToEncodedLen unichar ≠ len then einval
  else if !isUnicodeValid (unichar % 2^32).toNat then einval
  else len

/-- `utf8_encoded_valid_unichar` -/
def encodedValidUnichar (buf : List UInt8) : Option ℤ :=
  (get buf 0).bind fun c =>
    let len := utf8EncodedExpectedLen c
    if len = 0 then some einval
    else if len = 1 then some 1
    else (highLoop buf len 0).bind fun high =>
      if !high then some einval
      else (encodedToUnichar buf).map (testUnichar len)

variable {s : CString} {n i u : ℕ}

theorem get_string (h : i ≤ s.length) : get (s ++ [0]) i = some (charAt s i) := by
  rcases Nat.lt_or_eq_of_le h with h | rfl
  · rw [CheckedBuffer.get,List.getElem?_append_left h,charAt,List.getD_eq_getElem _ _ h,List.getElem?_eq_getElem h]
  · rw [charAt_length]
    exact get_append rfl rfl

/-- The terminator has no high bit, so a byte that has one is followed by another byte. -/
theorem lt_of_high (h : i ≤ s.length) (hc : 128 ≤ (charAt s i).toNat) : i < s.length := by
  refine lt_of_le_of_ne h fun he => ?_
  rw [he,charAt_length] at hc
  exact absurd hc (by decide)

theorem highLoop_eq (h : i ≤ s.length) :
    highLoop (s ++ [0]) n i = some (decide (∀ j < n, 128 ≤ (charAt s (i+j)).toNat)) := by
  induction n generalizing i with
  | zero => rw [highLoop,decide_eq_true fun j hj => absurd hj (Nat.not_lt_zero j)]
  | succ n ih =>
    rw [highLoop,get_string h,Option.bind_some]
    by_cases hc : charAt s i &&& 0x80 ≠ 0x80
    · have hlow := (high_bit _).mp hc
      rw [if_pos hc,decide_eq_false fun hall => ?_]
      have := hall 0 (Nat.succ_pos n)
      rw [Nat.add_zero] at this
      omega
    · have hhigh := Nat.not_lt.mp (mt (high_bit _).mpr hc)
      rw [if_neg hc,ih (lt_of_high h hhigh)]
      refine congrArg some (decide_eq_decide.mpr ⟨fun hall j hj => ?_,fun hall j hj => ?_⟩)
      · cases j with
        | zero => exact hhigh
        | succ j =>
          rw [← Nat.add_assoc,Nat.add_right_comm]
          exact hall j (by omega)
      · have := hall (j+1) (by omega)
        rwa [← Nat.add_assoc,Nat.add_right_comm] at this

theorem unicharLoop_eq (h : i+n ≤ s.length) : unicharLoop (s ++ [0]) n i u =
    some ((continuation u ((List.range' i n).map (charAt s))).elim einval (↑·)) := by
  induction n generalizing i u with
  | zero => rfl
  | succ n ih =>
    rw [unicharLoop,get_string (by omega),Option.bind_some,List.range'_succ,List.map_cons,continuation]
    by_cases hc : charAt s i &&& 0xc0 ≠ 0x80
    · rw [if_pos hc,if_pos hc]
      rfl
    · rw [if_neg hc,if_neg hc]
      exact ih (by omega)

theorem encodedToUnichar_eq (hone : 1 < utf8EncodedExpectedLen (charAt s 0))
    (hlen : utf8EncodedExpectedLen (charAt s 0) ≤ s.length) :
    encodedToUnichar (s ++ [0]) = some ((utf8EncodedToUnichar s).elim einval (↑·)) := by
  rw [encodedToUnichar,get_string (Nat.zero_le _),Option.bind_some]
  dsimp only
  rw [if_neg (by omega),if_neg (by omega),unicharLoop_eq (by omega),utf8EncodedToUnichar]
  simp only [List.range'_eq_map_range,List.map_map,Function.comp_def,Nat.add_comm 1]

theorem unicharToEncodedLen_natCast (u : ℕ) : unicharToEncodedLen u = utf8UnicharToEncodedLen u := by
  rw [unicharToEncodedLen,utf8UnicharToEncodedLen]
  norm_cast

theorem expectedLen_le (c : UInt8) : utf8EncodedExpectedLen c ≤ 6 := by
  rw [utf8EncodedExpectedLen]
  split_ifs <;> decide

theorem continuation_lt {acc : ℕ} {cs : List UInt8} (h : continuation acc cs = some u) :
    u < (acc+1)*64^cs.length := by
  induction cs generalizing acc with
  | nil =>
    obtain rfl := Option.some.inj h
    simp
  | cons c cs ih =>
    have hlt := ih (continuation_cons.mp h).2
    have hmod : c.toNat % 64 < 64 := Nat.mod_lt _ (by decide)
    calc u < (acc*64+c.toNat%64+1)*64^cs.length := hlt
      _ ≤ ((acc+1)*64)*64^cs.length := Nat.mul_le_mul_right _ (by omega)
      _ = (acc+1)*64^(cs.length+1) := by rw [Nat.pow_succ,Nat.mul_assoc,Nat.mul_comm 64]

theorem unichar_lt (h : utf8EncodedToUnichar s = some u) : u < 2^32 := by
  rw [utf8EncodedToUnichar] at h
  have hle := expectedLen_le (charAt s 0)
  generalize utf8EncodedExpectedLen (charAt s 0) = len at h hle
  have hlt := continuation_lt h
  rw [List.length_map,List.length_range] at hlt
  have hlead : (charAt s 0).toNat % 2^(7-len) < 2^(7-len) := Nat.mod_lt _ (Nat.two_pow_pos _)
  calc u < _ := hlt
    _ ≤ 2^(7-len)*64^(len-1) := Nat.mul_le_mul_right _ hlead
    _ = 2^(7-len+6*(len-1)) := by rw [Nat.pow_add,Nat.pow_mul]
    _ ≤ 2^32 := Nat.pow_le_pow_right (by decide) (by omega)

theorem testUnichar_natCast (hu : u < 2^32) (len : ℕ) : testUnichar len u =
    if utf8UnicharToEncodedLen u ≠ len ∨ ¬isUnicodeValid u = true then einval else len := by
  have hmod : ((u : ℤ) % 2^32).toNat = u := by omega
  rw [testUnichar,unicharToEncodedLen_natCast,hmod]
  by_cases henc : utf8UnicharToEncodedLen u ≠ len
  · rw [if_pos henc,if_pos (Or.inl henc)]
  by_cases hvalid : isUnicodeValid u = true
  · rw [if_neg henc,if_neg (not_or.mpr ⟨henc,not_not.mpr hvalid⟩),hvalid]
    rfl
  · rw [if_neg henc,if_pos (Or.inr hvalid),Bool.eq_false_iff.mpr hvalid]
    rfl

/-- What is returned: the length of a valid sequence or `-EINVAL`, and nothing behind the terminator is read. -/
theorem encodedValidUnichar_eq (s : CString) : encodedValidUnichar (s ++ [0]) =
    some (if utf8EncodedValidUnichar s = 0 then einval else utf8EncodedValidUnichar s) := by
  rw [encodedValidUnichar,get_string (Nat.zero_le _),Option.bind_some,utf8EncodedValidUnichar]
  dsimp only
  by_cases hzero : utf8EncodedExpectedLen (charAt s 0) = 0
  · rw [if_pos hzero,if_pos (show _ ≤ 1 by omega),if_pos hzero]
  by_cases hone : utf8EncodedExpectedLen (charAt s 0) = 1
  · rw [if_neg hzero,if_pos hone,if_pos (show _ ≤ 1 by omega),if_neg hzero,hone]
    rfl
  rw [if_neg hzero,if_neg hone,if_neg (show ¬_ ≤ 1 by omega),highLoop_eq (Nat.zero_le _),Option.bind_some]
  have hany : ((List.range (utf8EncodedExpectedLen (charAt s 0))).any fun i => charAt s i &&& 0x80 ≠ 0x80) =
      !decide (∀ j < utf8EncodedExpectedLen (charAt s 0), 128 ≤ (charAt s (0+j)).toNat) := by
    rw [Bool.eq_iff_iff,List.any_eq_true]
    simp only [Bool.not_eq_true',decide_eq_false_iff_not,not_forall,Nat.zero_add,decide_eq_true_iff,List.mem_range,
      high_bit,Nat.not_le,exists_prop]
  rw [hany]
  by_cases hhigh : ∀ j < utf8EncodedExpectedLen (charAt s 0), 128 ≤ (charAt s (0+j)).toNat
  · have hlen : utf8EncodedExpectedLen (charAt s 0) ≤ s.length := by
      by_contra hlong
      have := hhigh s.length (Nat.lt_of_not_le hlong)
      rw [Nat.zero_add,charAt_length] at this
      exact absurd this (by decide)
    rw [decide_eq_true hhigh,encodedToUnichar_eq (by omega) hlen]
    cases hu : utf8EncodedToUnichar s with
    | none => exact congrArg some (if_pos (show 1 ≠ _ by omega))
    | some u =>
      refine congrArg some ((testUnichar_natCast (unichar_lt hu) _).trans ?_)
      simp only [Bool.not_true,Bool.false_eq_true,if_false]
      by_cases hbad : utf8UnicharToEncodedLen u ≠ utf8EncodedExpectedLen (charAt s 0) ∨ ¬isUnicodeValid u = true
      · rw [if_pos hbad,if_pos hbad,if_pos rfl]
      · rw [if_neg hbad,if_neg hbad,if_neg hzero]
  · rw [decide_eq_false hhigh]
    rfl

/-- The characters of more than one byte that the program does not reserve. -/
theorem isUnicodeValid_char (c : Char) : isUnicodeValid c.toNat = true ↔
    ¬(0xfdd0 ≤ c.toNat ∧ c.toNat ≤ 0xfdef) ∧ c.toNat % 0x10000 ≠ 0xfffe ∧ c.toNat % 0x10000 ≠ 0xffff := by
  rw [isUnicodeValid,decide_eq_true_iff]
  have hc : c.toNat < 0xd800 ∨ 0xdfff < c.toNat ∧ c.toNat < 0x110000 := c.valid
  omega

theorem expectedLen_one : ∀ c : UInt8, utf8EncodedExpectedLen c = 1 ↔ c.toNat < 128 := forall_byte (by decide +kernel)

theorem validUnichar_eq_one : utf8EncodedValidUnichar s = 1 ↔ (charAt s 0).toNat < 0x80 := by
  rw [← expectedLen_one,utf8EncodedValidUnichar]
  generalize utf8EncodedExpectedLen (charAt s 0) = len
  by_cases hlen : len ≤ 1
  · rw [if_pos hlen]
  · rw [if_neg hlen]
    refine iff_of_false ?_ (by omega)
    split_ifs
    · decide
    · split
      · decide
      · split_ifs
        · exact not_false
        · omega

theorem validUnichar_eq (hn : 1 < n) : utf8EncodedValidUnichar s = n ↔ ∃ c : Char, 0x7f < c.toNat ∧
    isUnicodeValid c.toNat = true ∧ String.utf8EncodeChar c <+: s ∧ (String.utf8EncodeChar c).length = n := by
  constructor
  · rintro rfl
    obtain ⟨c,hlow,hvalid,henc⟩ := validSequence_take hn
    refine ⟨c,hlow,hvalid,?_,?_⟩
    · rw [← henc]
      exact List.take_prefix _ _
    · rw [← henc,List.length_take]
      exact Nat.min_eq_left (validUnichar_le hn)
  · rintro ⟨c,hlow,hvalid,⟨t,rfl⟩,rfl⟩
    exact (validUnichar_append ⟨c,hlow,hvalid,rfl⟩ t).1

/-- The result is the number of bytes of the one character that the string begins with, 1 for ASCII,
and an error for everything else. -/
theorem utf8_encoded_valid_unichar (s : CString) : ∃ r : ℤ, encodedValidUnichar (s ++ [0]) = some r ∧
    (r = 1 ↔ (charAt s 0).toNat < 0x80) ∧
    (∀ n : ℕ, 1 < n → (r = n ↔ ∃ c : Char, 0x7f < c.toNat ∧ ¬(0xfdd0 ≤ c.toNat ∧ c.toNat ≤ 0xfdef) ∧
      c.toNat % 0x10000 ≠ 0xfffe ∧ c.toNat % 0x10000 ≠ 0xffff ∧
      String.utf8EncodeChar c <+: s ∧ (String.utf8EncodeChar c).length = n)) ∧
    (r = 1 ∨ (∃ n : ℕ, 1 < n ∧ r = n) ∨ r < 0) := by
  have hvalue : ∀ n : ℕ, 0 < n → ((if utf8EncodedValidUnichar s = 0 then einval else utf8EncodedValidUnichar s) = (n : ℤ) ↔
      utf8EncodedValidUnichar s = n) := by
    intro n hn
    by_cases hzero : utf8EncodedValidUnichar s = 0
    · rw [if_pos hzero,einval]
      omega
    · rw [if_neg hzero]
      exact Int.natCast_inj
  refine ⟨_,encodedValidUnichar_eq s,?_,fun n hn => ?_,?_⟩
  · exact (hvalue 1 Nat.one_pos).trans validUnichar_eq_one
  · rw [hvalue n (by omega),validUnichar_eq hn]
    refine exists_congr fun c => and_congr_right fun _ => ?_
    rw [isUnicodeValid_char,and_assoc,and_assoc]
  · by_cases hzero : utf8EncodedValidUnichar s = 0
    · rw [if_pos hzero]
      exact Or.inr (Or.inr (by decide))
    · rw [if_neg hzero]
      by_cases hone : utf8EncodedValidUnichar s = 1
      · exact Or.inl (by rw [hone]; rfl)
      · exact Or.inr (Or.inl ⟨_,by omega,rfl⟩)

end Utf8Reads
end Udev
