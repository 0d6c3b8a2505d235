import Udev.Text

/-! Numbers as `printf` writes them in decimal, which `strtoul` and `atoi` read back. -/
namespace Udev
namespace Decimal

open CString Text

def decimalDigits : ℕ → ℕ → CString
  | 0, _ => []
  | fuel+1, n => (if n < 10 then [] else decimalDigits fuel (n/10)) ++ [UInt8.ofNat ((chr '0').toNat+n%10)]

/-- `"%u"` and `"%llu"`: a number of 64 bits has at most 20 digits. -/
def printNat (n : ℕ) : CString := decimalDigits 20 n

/-- `"%i"`. -/
def printInt (z : ℤ) : CString := if z < 0 then chr '-'::printNat z.natAbs else printNat z.natAbs

def IsDigit (c : UInt8) : Prop := chr '0' ≤ c ∧ c.toNat < (chr '0').toNat+10

theorem isDigit_ofNat (n : ℕ) : IsDigit (UInt8.ofNat ((chr '0').toNat+n%10)) ∧
    (UInt8.ofNat ((chr '0').toNat+n%10)).toNat-(chr '0').toNat = n%10 := by
  have h48 : (chr '0').toNat = 48 := rfl
  have hnat : (UInt8.ofNat ((chr '0').toNat+n%10)).toNat = (chr '0').toNat+n%10 := by
    rw [UInt8.toNat_ofNat_of_lt']
    have : UInt8.size = 256 := rfl
    omega
  refine ⟨⟨?_,?_⟩,?_⟩
  · rw [UInt8.le_iff_toNat_le,hnat]
    omega
  · rw [hnat]
    omega
  · rw [hnat]
    omega

theorem decimalDigits_isDigit (fuel n : ℕ) : ∀ c ∈ decimalDigits fuel n, IsDigit c := by
  induction fuel generalizing n with
  | zero => simp [decimalDigits]
  | succ fuel ih =>
    intro c hc
    rcases List.mem_append.mp hc with hc | hc
    · split_ifs at hc
      · simp at hc
      · exact ih _ c hc
    · rw [List.mem_singleton.mp hc]
      exact (isDigit_ofNat n).1

theorem digits_append {s : CString} (hs : ∀ c ∈ s, IsDigit c) (acc : ℕ) (t : CString) :
    digits 10 acc (s ++ t) = digits 10 (s.foldl (fun v c => v*10+(c.toNat-(chr '0').toNat)) acc) t := by
  induction s generalizing acc with
  | nil => rfl
  | cons c s ih =>
    have hc : chr '0' ≤ c ∧ c.toNat < (chr '0').toNat+10 := hs c List.mem_cons_self
    rw [List.cons_append,digits,if_pos hc,ih fun x hx => hs x (List.mem_cons_of_mem _ hx)]
    rfl

theorem foldl_decimalDigits {fuel n : ℕ} (h : n < 10^fuel) :
    (decimalDigits fuel n).foldl (fun v c => v*10+(c.toNat-(chr '0').toNat)) 0 = n := by
  induction fuel generalizing n with
  | zero =>
    have : n = 0 := by simpa using h
    rw [this]
    rfl
  | succ fuel ih =>
    have hdigit := (isDigit_ofNat n).2
    rw [decimalDigits,List.foldl_append,List.foldl_cons,List.foldl_nil,hdigit]
    split_ifs with hn
    · simp only [List.foldl_nil]
      omega
    · have hdiv : n/10 < 10^fuel := by
        rw [pow_succ] at h
        omega
      rw [ih hdiv]
      omega

theorem digits_printNat {n : ℕ} (h : n < 10^20) : digits 10 0 (printNat n) = (n,[]) := by
  have happ := digits_append (decimalDigits_isDigit 20 n) 0 []
  rw [foldl_decimalDigits h,List.append_nil] at happ
  exact happ

theorem printNat_ne_nil (n : ℕ) : printNat n ≠ [] := by
  simp [printNat,decimalDigits]

theorem IsDigit.plain {c : UInt8} (h : IsDigit c) : isspace c = false ∧ c ≠ chr '-' ∧ c ≠ chr '+' := by
  have h48 : (chr '0').toNat = 48 := rfl
  have hle : 48 ≤ c.toNat := UInt8.le_iff_toNat_le.mp h.1
  have hne : ∀ d : UInt8, d.toNat < 48 → c ≠ d := by
    rintro d hd rfl
    omega
  refine ⟨?_,hne _ (by decide),hne _ (by decide)⟩
  have hspace : c ≠ chr ' ' := hne _ (by decide)
  have hctl : ¬c ≤ 13 := by
    intro hc
    have : c.toNat ≤ 13 := UInt8.le_iff_toNat_le.mp hc
    omega
  simp [isspace,hspace,hctl]

theorem decimalDigits_length (fuel n : ℕ) : (decimalDigits fuel n).length ≤ fuel := by
  induction fuel generalizing n with
  | zero => simp [decimalDigits]
  | succ fuel ih =>
    have := ih (n/10)
    rw [decimalDigits,List.length_append,List.length_singleton]
    split_ifs
    · simp
    · omega

theorem printNat_length (n : ℕ) : 1 ≤ (printNat n).length ∧ (printNat n).length ≤ 20 :=
  ⟨List.length_pos_iff.mpr (printNat_ne_nil n),decimalDigits_length 20 n⟩

theorem printInt_length (z : ℤ) : 1 ≤ (printInt z).length ∧ (printInt z).length ≤ 21 := by
  obtain ⟨hpos,hle⟩ := printNat_length z.natAbs
  unfold printInt
  split_ifs
  · rw [List.length_cons]
    omega
  · omega

theorem printInt_text {z : ℤ} {c : UInt8} (hc : c.toNat < 33) : c ∉ printInt z := by
  have hdigits : c ∉ printNat z.natAbs := by
    intro hmem
    have hle : (chr '0').toNat ≤ c.toNat := UInt8.le_iff_toNat_le.mp (decimalDigits_isDigit _ _ c hmem).1
    have : (chr '0').toNat = 48 := rfl
    omega
  unfold printInt
  split_ifs
  · rw [List.mem_cons,not_or]
    refine ⟨?_,hdigits⟩
    rintro rfl
    exact absurd hc (by decide)
  · exact hdigits

theorem printNat_text {n : ℕ} {c : UInt8} (hc : c.toNat < 33) : c ∉ printNat n := by
  have hint : printInt n = printNat n := if_neg (by omega)
  rw [← hint]
  exact printInt_text hc

theorem number_printNat {n : ℕ} (h : n < 10^20) :
    number 10 (printNat n) = (false,n,[]) ∧ number 10 (chr '-'::printNat n) = (true,n,[]) := by
  obtain ⟨c,s,hs⟩ := List.exists_cons_of_ne_nil (printNat_ne_nil n)
  have hc : IsDigit c := decimalDigits_isDigit 20 n c (by rw [← printNat,hs]; exact List.mem_cons_self)
  obtain ⟨hspace,hminus,hplus⟩ := hc.plain
  have hdigits := digits_printNat h
  have hlen : ¬(0 = (printNat n).length) := by
    rw [hs]
    simp
  have hhead : charAt (printNat n) 0 = c := by
    rw [hs]
    rfl
  have hdrop : (printNat n).dropWhile isspace = printNat n := by
    rw [hs,List.dropWhile_cons_of_neg (by simp [hspace])]
  constructor
  · simp [number,hdrop,hhead,hminus,hplus,hdigits,hlen]
  · have hdash : (chr '-'::printNat n).dropWhile isspace = chr '-'::printNat n :=
      List.dropWhile_cons_of_neg (by decide)
    have hfirst : charAt (chr '-'::printNat n) 0 = chr '-' := rfl
    simp [number,hdash,hfirst,hdigits,hlen]

theorem strtoul_printNat {n : ℕ} (h : n < 2^64) : strtoul 10 (printNat n) = (n,[]) := by
  have hnumber := (number_printNat (n := n) (by omega)).1
  have hsize : ¬n ≥ 2^64 := by omega
  simp only [strtoul,hnumber,if_neg hsize]
  rfl

theorem toInt32_eq {z : ℤ} (h : -2^31 ≤ z) (h' : z < 2^31) : toInt32 z = z := by
  unfold toInt32
  exact Int.bmod_eq_of_le (by omega) (by omega)

theorem atoi_printInt {z : ℤ} (h : -2^31 ≤ z) (h' : z < 2^31) : atoi (printInt z) = z := by
  have habs : z.natAbs < 10^20 := by omega
  obtain ⟨hpos,hneg⟩ := number_printNat habs
  unfold atoi printInt
  split_ifs with hz
  · have hval : (strtol 10 (chr '-'::printNat z.natAbs)).1 = z := by
      simp only [strtol,hneg,if_true]
      rw [if_neg (by omega)]
      omega
    rw [hval,toInt32_eq h h']
  · have hval : (strtol 10 (printNat z.natAbs)).1 = z := by
      simp only [strtol,hpos]
      simp only [Bool.false_eq_true,if_false]
      rw [if_neg (by omega)]
      omega
    rw [hval,toInt32_eq h h']

theorem str_digits {n : ℕ} {fuel : ℕ} (h : n < 10^fuel) (hfuel : 0 < fuel) :
    (Nat.toDigits 10 n).map (fun c => c.toNat.toUInt8) = decimalDigits fuel n := by
  induction fuel generalizing n with
  | zero => omega
  | succ fuel ih =>
    have hdigit : ∀ d < 10, (Nat.digitChar d).toNat.toUInt8 = UInt8.ofNat ((chr '0').toNat+d) := by decide
    rw [decimalDigits]
    by_cases hn : n < 10
    · rw [Nat.toDigits_of_lt_base hn,if_pos hn,List.nil_append,List.map_singleton,hdigit n hn,Nat.mod_eq_of_lt hn]
    · have hdiv : n/10 < 10^fuel := by
        rw [pow_succ] at h
        omega
      have hpos : 0 < fuel := by
        rcases Nat.eq_zero_or_pos fuel with rfl | hpos
        · omega
        · exact hpos
      rw [Nat.toDigits_of_base_le (by decide) (Nat.le_of_not_lt hn),if_neg hn,List.map_append,ih hdiv hpos,
        List.map_singleton,hdigit _ (Nat.mod_lt n (by decide))]

theorem str_toString {n : ℕ} (h : n < 10^20) : str (toString n) = printNat n := by
  have hlist : (toString n).toList = Nat.toDigits 10 n := Nat.toList_repr
  rw [str,hlist,str_digits h (by decide),printNat]

theorem notMem_printNat {c : UInt8} (hc : ¬IsDigit c) (n : ℕ) : c ∉ printNat n :=
  fun h => hc (decimalDigits_isDigit 20 n c h)

theorem not_isDigit_slash : ¬IsDigit (chr '/') := by
  rintro ⟨h,-⟩
  exact absurd h (by decide)

end Decimal
end Udev
