import Udev.Memory
import Udev.Text
import Mathlib.Data.List.GetD

/-! The sequences that `utf8_encoded_valid_unichar` takes: the UTF-8 encodings of the characters
that are not ASCII, less those that the program reserves. -/
namespace Udev
namespace Text

open CString Memory

def ValidSequence (p : CString) : Prop :=
  ∃ c : Char, 0x80 ≤ c.toNat ∧ isUnicodeValid c.toNat = true ∧ p = String.utf8EncodeChar c

variable {s p : CString} {n u acc : ℕ}

section Bytes

theorem expectedLen_two : ∀ c : UInt8, utf8EncodedExpectedLen c = 2 ↔ 192 ≤ c.toNat ∧ c.toNat < 224 :=
  forall_byte (by decide +kernel)

theorem expectedLen_three : ∀ c : UInt8, utf8EncodedExpectedLen c = 3 ↔ 224 ≤ c.toNat ∧ c.toNat < 240 :=
  forall_byte (by decide +kernel)

theorem expectedLen_four : ∀ c : UInt8, utf8EncodedExpectedLen c = 4 ↔ 240 ≤ c.toNat ∧ c.toNat < 248 :=
  forall_byte (by decide +kernel)

theorem high_bit : ∀ c : UInt8, c &&& 0x80 ≠ 0x80 ↔ c.toNat < 128 := forall_byte (by decide +kernel)

theorem continuation_byte : ∀ c : UInt8, c &&& 0xc0 ≠ 0x80 ↔ ¬(128 ≤ c.toNat ∧ c.toNat < 192) :=
  forall_byte (by decide +kernel)

theorem continuation_cons {c : UInt8} {cs : List UInt8} : continuation acc (c::cs) = some u ↔
    (128 ≤ c.toNat ∧ c.toNat < 192) ∧ continuation (acc*64+c.toNat%64) cs = some u := by
  rw [continuation]
  by_cases hc : c &&& 0xc0 ≠ 0x80
  · rw [if_pos hc]
    exact iff_of_false nofun fun h => (continuation_byte c).mp hc h.1
  · rw [if_neg hc,and_iff_right (not_not.mp (mt (continuation_byte c).mpr hc))]

theorem continuation_nil : continuation acc [] = some u ↔ acc = u := Option.some_inj

theorem toUnichar_eq (h : utf8EncodedExpectedLen (charAt s 0) = n) : utf8EncodedToUnichar s =
    continuation ((charAt s 0).toNat % 2^(7-n)) ((List.range (n-1)).map fun i => charAt s (i+1)) := by
  rw [utf8EncodedToUnichar,h]

theorem validUnichar_eq_iff (hn : 1 < n) : utf8EncodedValidUnichar s = n ↔
    utf8EncodedExpectedLen (charAt s 0) = n ∧ (∀ i < n, 128 ≤ (charAt s i).toNat) ∧
      ∃ u, utf8EncodedToUnichar s = some u ∧ utf8UnicharToEncodedLen u = n ∧ isUnicodeValid u = true := by
  rw [utf8EncodedValidUnichar]
  have hbytes : ((List.range (utf8EncodedExpectedLen (charAt s 0))).any fun i => charAt s i &&& 0x80 ≠ 0x80) = true ↔
      ¬∀ i < utf8EncodedExpectedLen (charAt s 0), 128 ≤ (charAt s i).toNat := by
    rw [List.any_eq_true]
    push Not
    refine exists_congr fun i => ?_
    rw [List.mem_range,decide_eq_true_iff,high_bit]
  generalize utf8EncodedExpectedLen (charAt s 0) = len at hbytes ⊢
  by_cases hone : len ≤ 1
  · rw [if_pos hone]
    exact iff_of_false (by omega) (fun h => by omega)
  rw [if_neg hone]
  by_cases hlow : ((List.range len).any fun i => charAt s i &&& 0x80 ≠ 0x80) = true
  · rw [if_pos hlow]
    refine iff_of_false (by omega) ?_
    rintro ⟨rfl,hall,-⟩
    exact hbytes.mp hlow hall
  have hall := not_not.mp (mt hbytes.mpr hlow)
  rw [if_neg hlow]
  cases utf8EncodedToUnichar s with
  | none => exact iff_of_false (by show 0 ≠ n; omega) (by rintro ⟨-,-,u,h,-⟩; cases h)
  | some u =>
    show (if _ then 0 else len) = n ↔ _
    by_cases hbad : utf8UnicharToEncodedLen u ≠ len ∨ ¬isUnicodeValid u = true
    · rw [if_pos hbad]
      refine iff_of_false (by omega) ?_
      rintro ⟨rfl,-,u',hu,hlen,hvalid⟩
      obtain rfl := Option.some.inj hu
      exact hbad.elim (fun h => h hlen) (fun h => h hvalid)
    · obtain ⟨hlen,hvalid⟩ := not_or.mp hbad
      rw [if_neg hbad]
      constructor
      · rintro rfl
        exact ⟨rfl,hall,u,rfl,not_not.mp hlen,not_not.mp hvalid⟩
      · exact fun h => h.1

end Bytes

theorem exists_char (h : isUnicodeValid u = true) : ∃ c : Char, c.toNat = u := by
  rw [isUnicodeValid,decide_eq_true_iff] at h
  have hchar : u.isValidChar := by
    show u < 0xd800 ∨ 0xdfff < u ∧ u < 0x110000
    omega
  exact ⟨Char.ofNatAux u hchar,rfl⟩

theorem encodedLen_cases (h : isUnicodeValid u = true) (hlong : 1 < utf8UnicharToEncodedLen u) :
    utf8UnicharToEncodedLen u = 2 ∧ 0x80 ≤ u ∧ u < 0x800 ∨ utf8UnicharToEncodedLen u = 3 ∧ 0x800 ≤ u ∧ u < 0x10000 ∨
      utf8UnicharToEncodedLen u = 4 ∧ 0x10000 ≤ u ∧ u < 0x110000 := by
  rw [isUnicodeValid,decide_eq_true_iff] at h
  rw [utf8UnicharToEncodedLen] at hlong ⊢
  split_ifs at hlong ⊢
  all_goals omega

theorem encodeChar_bytes (c : Char) (p : CString) : p = String.utf8EncodeChar c ↔ p.map UInt8.toNat =
    if c.toNat ≤ 0x7f then [c.toNat]
    else if c.toNat ≤ 0x7ff then [c.toNat/64%32+192,c.toNat%64+128]
    else if c.toNat ≤ 0xffff then [c.toNat/4096%16+224,c.toNat/64%64+128,c.toNat%64+128]
    else [c.toNat/262144%8+240,c.toNat/4096%64+128,c.toNat/64%64+128,c.toNat%64+128] := by
  have hinj : Function.Injective (List.map UInt8.toNat) := List.map_injective_iff.mpr fun _ _ => UInt8.toNat_inj.mp
  rw [← hinj.eq_iff]
  refine Eq.congr rfl ?_
  rw [String.utf8EncodeChar]
  show List.map UInt8.toNat (ite (c.toNat ≤ 0x7f) _ (ite (c.toNat ≤ 0x7ff) _ (ite (c.toNat ≤ 0xffff) _ _))) = _
  have hmod (n k m : ℕ) (hm : 0 < m) (hk : k+m ≤ 256) : (n%m+k)%2^8 = n%m+k := by
    have hlt := Nat.mod_lt n hm
    exact Nat.mod_eq_of_lt (by omega)
  split_ifs with h₁ h₂ h₃
  · rw [List.map_singleton,UInt8.toNat_ofNat']
    exact congrArg (fun n => [n]) (Nat.mod_eq_of_lt (show c.toNat < 2^8 by omega))
  · simp only [List.map_cons,List.map_nil,UInt8.toNat_ofNat']
    rw [hmod _ 192 32 (by decide) (by decide),hmod _ 128 64 (by decide) (by decide)]
    rfl
  · simp only [List.map_cons,List.map_nil,UInt8.toNat_ofNat']
    rw [hmod _ 224 16 (by decide) (by decide),hmod _ 128 64 (by decide) (by decide),
      hmod _ 128 64 (by decide) (by decide)]
    rfl
  · simp only [List.map_cons,List.map_nil,UInt8.toNat_ofNat']
    rw [hmod _ 240 8 (by decide) (by decide),hmod _ 128 64 (by decide) (by decide),
      hmod _ 128 64 (by decide) (by decide),hmod _ 128 64 (by decide) (by decide)]
    rfl

theorem validUnichar_le (h : 1 < utf8EncodedValidUnichar s) : utf8EncodedValidUnichar s ≤ s.length := by
  obtain ⟨-,hbytes,-⟩ := (validUnichar_eq_iff h).mp rfl
  by_contra hlong
  have hend := hbytes s.length (Nat.lt_of_not_le hlong)
  rw [charAt_length] at hend
  exact absurd hend (by decide)

theorem validSequence_take (h : 1 < utf8EncodedValidUnichar s) : ValidSequence (s.take (utf8EncodedValidUnichar s)) := by
  have hle := validUnichar_le h
  obtain ⟨hlen,-,u,hu,henc,hvalid⟩ := (validUnichar_eq_iff h).mp rfl
  obtain ⟨c,rfl⟩ := exists_char hvalid
  have hcases := encodedLen_cases hvalid (by rw [henc]; exact h)
  rw [toUnichar_eq hlen] at hu
  rw [henc] at hcases
  generalize utf8EncodedValidUnichar s = n at h hle hlen hu hcases
  rcases hcases with ⟨rfl,hlow,hhigh⟩ | ⟨rfl,hlow,hhigh⟩ | ⟨rfl,hlow,hhigh⟩
  · match s, hle with
    | b::b₁::t, _ =>
      have hb := (expectedLen_two b).mp hlen
      have hu : continuation (b.toNat % 32) [b₁] = some c.toNat := hu
      rw [continuation_cons,continuation_nil] at hu
      refine ⟨c,hlow,hvalid,(encodeChar_bytes c _).mpr ?_⟩
      rw [if_neg (by omega),if_pos (by omega)]
      show [b.toNat,b₁.toNat] = _
      simp only [List.cons.injEq,and_true]
      omega
  · match s, hle with
    | b::b₁::b₂::t, _ =>
      have hb := (expectedLen_three b).mp hlen
      have hu : continuation (b.toNat % 16) [b₁,b₂] = some c.toNat := hu
      rw [continuation_cons,continuation_cons,continuation_nil] at hu
      refine ⟨c,by omega,hvalid,(encodeChar_bytes c _).mpr ?_⟩
      rw [if_neg (by omega),if_neg (by omega),if_pos (by omega)]
      show [b.toNat,b₁.toNat,b₂.toNat] = _
      simp only [List.cons.injEq,and_true]
      omega
  · match s, hle with
    | b::b₁::b₂::b₃::t, _ =>
      have hb := (expectedLen_four b).mp hlen
      have hu : continuation (b.toNat % 8) [b₁,b₂,b₃] = some c.toNat := hu
      rw [continuation_cons,continuation_cons,continuation_cons,continuation_nil] at hu
      refine ⟨c,by omega,hvalid,(encodeChar_bytes c _).mpr ?_⟩
      rw [if_neg (by omega),if_neg (by omega),if_neg (by omega)]
      show [b.toNat,b₁.toNat,b₂.toNat,b₃.toNat] = _
      simp only [List.cons.injEq,and_true]
      omega

theorem ValidSequence.high (hp : ValidSequence p) : ∀ b ∈ p, 128 ≤ b.toNat := by
  obtain ⟨c,hlow,hvalid,henc⟩ := hp
  have hbytes := (encodeChar_bytes c p).mp henc
  intro b hb
  have hmem := List.mem_map_of_mem (f := UInt8.toNat) hb
  rw [hbytes,if_neg (by omega)] at hmem
  split_ifs at hmem
  all_goals
    simp only [List.mem_cons,List.not_mem_nil,or_false] at hmem
    omega

theorem validUnichar_append (hp : ValidSequence p) (t : CString) :
    utf8EncodedValidUnichar (p ++ t) = p.length ∧ 1 < p.length := by
  have hhigh : ∀ i < p.length, 128 ≤ (charAt (p ++ t) i).toNat := by
    intro i hi
    rw [charAt_append_left hi,charAt,List.getD_eq_getElem _ _ hi]
    exact hp.high _ (List.getElem_mem hi)
  obtain ⟨c,hlow,hvalid,henc⟩ := hp
  have hbytes := (encodeChar_bytes c p).mp henc
  have hmax : c.toNat < 0x110000 := by
    rw [isUnicodeValid,decide_eq_true_iff] at hvalid
    exact hvalid.1
  have hlong : 1 < p.length → utf8EncodedExpectedLen (charAt (p ++ t) 0) = p.length →
      utf8EncodedToUnichar (p ++ t) = some c.toNat → utf8UnicharToEncodedLen c.toNat = p.length →
      utf8EncodedValidUnichar (p ++ t) = p.length ∧ 1 < p.length :=
    fun hone hexp hto hlen => ⟨(validUnichar_eq_iff hone).mpr ⟨hexp,hhigh,c.toNat,hto,hlen,hvalid⟩,hone⟩
  rw [if_neg (by omega)] at hbytes
  rw [utf8UnicharToEncodedLen,if_neg (by omega : ¬c.toNat < 0x80)] at hlong
  by_cases htwo : c.toNat ≤ 0x7ff
  · rw [if_pos htwo] at hbytes
    obtain ⟨b,q,rfl,hb,hbytes⟩ := List.map_eq_cons_iff.mp hbytes
    obtain ⟨b₁,q,rfl,hb₁,hbytes⟩ := List.map_eq_cons_iff.mp hbytes
    obtain rfl := List.map_eq_nil_iff.mp hbytes
    have hexp : utf8EncodedExpectedLen (charAt ([b,b₁] ++ t) 0) = 2 := (expectedLen_two b).mpr (by omega)
    refine hlong Nat.one_lt_two hexp ?_ (if_pos (by omega))
    rw [toUnichar_eq hexp]
    show continuation (b.toNat % 32) [b₁] = some c.toNat
    rw [continuation_cons,continuation_nil]
    omega
  by_cases hthree : c.toNat ≤ 0xffff
  · rw [if_neg htwo,if_pos hthree] at hbytes
    obtain ⟨b,q,rfl,hb,hbytes⟩ := List.map_eq_cons_iff.mp hbytes
    obtain ⟨b₁,q,rfl,hb₁,hbytes⟩ := List.map_eq_cons_iff.mp hbytes
    obtain ⟨b₂,q,rfl,hb₂,hbytes⟩ := List.map_eq_cons_iff.mp hbytes
    obtain rfl := List.map_eq_nil_iff.mp hbytes
    have hexp : utf8EncodedExpectedLen (charAt ([b,b₁,b₂] ++ t) 0) = 3 := (expectedLen_three b).mpr (by omega)
    refine hlong (Nat.lt_add_left 1 Nat.one_lt_two) hexp ?_ ((if_neg (by omega)).trans (if_pos (by omega)))
    rw [toUnichar_eq hexp]
    show continuation (b.toNat % 16) [b₁,b₂] = some c.toNat
    rw [continuation_cons,continuation_cons,continuation_nil]
    omega
  · rw [if_neg htwo,if_neg hthree] at hbytes
    obtain ⟨b,q,rfl,hb,hbytes⟩ := List.map_eq_cons_iff.mp hbytes
    obtain ⟨b₁,q,rfl,hb₁,hbytes⟩ := List.map_eq_cons_iff.mp hbytes
    obtain ⟨b₂,q,rfl,hb₂,hbytes⟩ := List.map_eq_cons_iff.mp hbytes
    obtain ⟨b₃,q,rfl,hb₃,hbytes⟩ := List.map_eq_cons_iff.mp hbytes
    obtain rfl := List.map_eq_nil_iff.mp hbytes
    have hexp : utf8EncodedExpectedLen (charAt ([b,b₁,b₂,b₃] ++ t) 0) = 4 := (expectedLen_four b).mpr (by omega)
    refine hlong (Nat.lt_add_left 2 Nat.one_lt_two) hexp ?_ ?_
    · rw [toUnichar_eq hexp]
      show continuation (b.toNat % 8) [b₁,b₂,b₃] = some c.toNat
      rw [continuation_cons,continuation_cons,continuation_cons,continuation_nil]
      omega
    · rw [if_neg (by omega),if_neg (by omega),if_pos (by omega)]
      rfl

end Text
end Udev
