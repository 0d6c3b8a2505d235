import Udev.ScsiSerial

/-! What the attempts to put vendor and model in front of a serial number leave in it. An attempt that fails
is not taken back, so the next one finds the model behind the vendor where that has the full length. -/
namespace Udev
namespace Scsi

open CString Memory SearchLoop

section Text

theorem charAt_pad (s : CString) (n i : ℕ) : charAt (s ++ List.replicate n 0) i = charAt s i := by
  by_cases hi : i < s.length
  · exact charAt_append_left hi _
  · obtain ⟨k,rfl⟩ := Nat.exists_eq_add_of_le (Nat.le_of_not_lt hi)
    rw [charAt_append_right,charAt_of_le (Nat.le_add_right _ k),charAt,List.getD_eq_getElem?_getD,List.getElem?_replicate]
    split_ifs <;> rfl

theorem write_mem (f : Field) (pos : ℕ) (s : CString) : (f.write pos s).mem = f.mem.write pos s := rfl

/-- Nothing was written behind the end of an array. -/
def Field.Inside (n : ℕ) (f : Field) : Prop := ∀ i ∈ f.writes, i < n

theorem inside_write (n : ℕ) (f : Field) (pos : ℕ) (s : CString) :
    (f.write pos s).Inside n ↔ f.Inside n ∧ (0 < s.length → pos+s.length ≤ n) := by
  rw [Field.Inside,Field.write,List.forall_mem_append,Field.Inside]
  refine and_congr_right fun _ => ⟨fun h hpos => ?_,fun h i hi => ?_⟩
  · have hlast := h (pos+(s.length-1)) (List.mem_range'_1.mpr ⟨Nat.le_add_right _ _,by omega⟩)
    omega
  · obtain ⟨hlow,hhigh⟩ := List.mem_range'_1.mp hi
    have hle := h (by omega)
    omega

end Text

section Names

variable (names : Names)

def fullNames : Names :=
  ⟨str "VENDOR  ",str "MODEL           ",by decide,by decide,by decide,by decide⟩

/-- What is in front of the model after another copy of the vendor, which is not terminated at its full length. -/
def Names.before (k : ℕ) : CString :=
  if names.vendor.length = vendorLength then names.vendor ++ (List.replicate k names.model).flatten else names.vendor

def Names.leftover : ℕ → CString
  | 0 => []
  | k+1 => names.before k ++ names.model

def Names.Roomy (k : ℕ) : Prop := names.vendor.length = vendorLength → k*names.model.length < maxSerialLen-1-vendorLength

def Names.Full (k : ℕ) : Prop := (names.leftover k).length = vendorLength+modelLength

instance (k : ℕ) : Decidable (names.Roomy k) := inferInstanceAs (Decidable (_ → _))

instance (k : ℕ) : Decidable (names.Full k) := inferInstanceAs (Decidable (_ = _))

structure Left (k : ℕ) (f : Field) : Prop where
  holds : ∀ i, i < maxSerialLen-1 → f.mem (1+i) = charAt (names.leftover k) i
  inside : f.Inside maxSerialLen ↔ names.Roomy k

variable {names} {k : ℕ} {f : Field}

theorem leftover_one (names : Names) : names.leftover 1 = names.vendor ++ names.model := by
  rw [Names.leftover,Names.before]
  split_ifs
  · rw [List.replicate_zero,List.flatten_nil,List.append_nil]
  · rfl

theorem full_one (hvendor : names.vendor.length = vendorLength) (hmodel : names.model.length = modelLength) :
    names.Full 1 := by
  rw [Names.Full,leftover_one,List.length_append,hvendor,hmodel]

theorem before_succ (h : names.vendor.length = vendorLength) : names.before (k+1) = names.leftover (k+1) := by
  rw [Names.leftover,Names.before,Names.before,if_pos h,if_pos h,List.replicate_succ',List.flatten_concat,
    List.append_assoc]

theorem before_length (h : names.vendor.length = vendorLength) :
    (names.before k).length = vendorLength+k*names.model.length := by
  rw [Names.before,if_pos h,List.length_append,h]
  simp

theorem leftover_le : (names.leftover k).length ≤ (names.leftover (k+1)).length := by
  cases k with
  | zero => exact Nat.zero_le _
  | succ k =>
    rw [Names.leftover,Names.leftover,List.length_append,List.length_append]
    by_cases h : names.vendor.length = vendorLength
    · rw [before_length h,before_length h,Nat.succ_mul]
      omega
    · rw [Names.before,Names.before,if_neg h,if_neg h]

theorem before_nul : 0 ∉ names.before k := by
  rw [Names.before]
  by_cases h : names.vendor.length = vendorLength
  · rw [if_pos h,List.mem_append,not_or]
    refine ⟨names.vendor_nul,fun hmem => ?_⟩
    obtain ⟨l,hl,h0⟩ := List.mem_flatten.mp hmem
    exact names.model_nul (List.eq_of_mem_replicate hl ▸ h0)
  · rw [if_neg h]
    exact names.vendor_nul

theorem leftover_nul : 0 ∉ names.leftover k := by
  cases k with
  | zero => exact List.not_mem_nil
  | succ k =>
    rw [Names.leftover,List.mem_append,not_or]
    exact ⟨before_nul,names.model_nul⟩

theorem left_zero : Left names 0 {} := by
  refine ⟨fun _ _ => rfl,iff_of_true (fun i hi => absurd hi List.not_mem_nil) fun _ => ?_⟩
  rw [Nat.zero_mul]
  decide

theorem Left.text (h : Left names k f) : f.text 1 = (names.leftover k).take (maxSerialLen-1) :=
  textFrom_take (fun i hi _ => h.holds i hi) leftover_nul

theorem Left.strlen (h : Left names k f) : f.strlen 1 = min (maxSerialLen-1) (names.leftover k).length := by
  rw [Field.strlen,h.text,List.length_take]

theorem Left.write_zero (h : Left names k f) (c : UInt8) : Left names k (f.write 0 [c]) := by
  refine ⟨fun i hi => ?_,?_⟩
  · exact (write_of_not _ _ (Or.inr (by rw [List.length_singleton]; omega))).trans (h.holds i hi)
  · rw [inside_write,h.inside,and_iff_left]
    exact fun _ => show 0+1 ≤ maxSerialLen by decide

end Names

section Prepend

variable {names : Names} {k : ℕ} {f : Field}

theorem vendor_copy (names : Names) :
    names.vendor.take vendorLength ++ List.replicate (vendorLength-names.vendor.length) 0 =
      names.vendor ++ List.replicate (vendorLength-names.vendor.length) 0 := by
  rw [List.take_of_length_le names.vendor_len]

theorem vendor_copy_length (names : Names) :
    (names.vendor ++ List.replicate (vendorLength-names.vendor.length) (0 : UInt8)).length = vendorLength := by
  rw [List.length_append,List.length_replicate,Nat.add_sub_of_le names.vendor_len]

theorem copied_vendor (f : Field) {i : ℕ} (hi : i < vendorLength) :
    (f.strncpy 1 names.vendor vendorLength).mem (1+i) = charAt names.vendor i := by
  rw [Field.strncpy,write_mem,vendor_copy,write_at _ _ (by rw [vendor_copy_length]; exact hi),charAt_pad]

theorem copied_rest (h : Left names k f) {i : ℕ} (hlow : vendorLength ≤ i) (hi : i < maxSerialLen-1) :
    (f.strncpy 1 names.vendor vendorLength).mem (1+i) = charAt (names.leftover k) i := by
  rw [Field.strncpy,write_mem,vendor_copy]
  exact (write_of_not _ _ (Or.inr (by rw [vendor_copy_length]; omega))).trans (h.holds i hi)

theorem copied_before (h : Left names k f) {i : ℕ} (hi : i < maxSerialLen-1) (hle : i ≤ (names.before k).length) :
    (f.strncpy 1 names.vendor vendorLength).mem (1+i) = charAt (names.before k) i := by
  by_cases hlow : i < vendorLength
  · rw [copied_vendor f hlow,Names.before]
    by_cases hfull : names.vendor.length = vendorLength
    · rw [if_pos hfull,charAt_append_left (hfull ▸ hlow)]
    · rw [if_neg hfull]
  · have hfull : names.vendor.length = vendorLength := by
      by_contra hne
      rw [Names.before,if_neg hne] at hle
      have hlen := names.vendor_len
      omega
    rw [copied_rest h (Nat.le_of_not_lt hlow) hi]
    cases k with
    | zero =>
      rw [before_length hfull,Nat.zero_mul] at hle
      rw [charAt_of_le (Nat.zero_le _),charAt_of_le (by rw [before_length hfull]; omega)]
    | succ k => rw [before_succ hfull]

theorem copied_behind (h : Left names k f) {i : ℕ} (hi : i < maxSerialLen-1) (hle : (names.leftover (k+1)).length ≤ i) :
    (f.strncpy 1 names.vendor vendorLength).mem (1+i) = 0 := by
  by_cases hlow : i < vendorLength
  · rw [copied_vendor f hlow,charAt_of_le]
    refine le_trans ?_ hle
    rw [Names.leftover,Names.before,List.length_append]
    split_ifs
    · rw [List.length_append,Nat.add_assoc]
      exact Nat.le_add_right _ _
    · exact Nat.le_add_right _ _
  · rw [copied_rest h (Nat.le_of_not_lt hlow) hi,charAt_of_le (leftover_le.trans hle)]

theorem copied_strlen (h : Left names k f) :
    (f.strncpy 1 names.vendor vendorLength).strlen 1 = min (maxSerialLen-1) (names.before k).length := by
  rw [Field.strlen,Field.text,textFrom_take (fun i hi hle => copied_before h hi hle) before_nul,List.length_take]

theorem prepend_eq (h : Left names k f) :
    (prependVendorModel names f 1).2 = ((f.strncpy 1 names.vendor vendorLength).write
      (1+min (maxSerialLen-1) (names.before k).length) (names.model ++ [0])) := by
  rw [prependVendorModel,Field.strncat,copied_strlen h,List.take_of_length_le names.model_len]

theorem prepend_holds (h : Left names k f) {i : ℕ} (hi : i < maxSerialLen-1) :
    (prependVendorModel names f 1).2.mem (1+i) = charAt (names.leftover (k+1)) i := by
  rw [prepend_eq h,write_mem,Names.leftover]
  have hlen : (names.model ++ [(0 : UInt8)]).length = names.model.length+1 := List.length_append
  by_cases hfront : i < (names.before k).length
  · rw [charAt_append_left hfront]
    exact (write_of_not _ _ (Or.inl (by omega))).trans (copied_before h hi hfront.le)
  · have hmin : min (maxSerialLen-1) (names.before k).length = (names.before k).length := by omega
    obtain ⟨j,rfl⟩ := Nat.exists_eq_add_of_le (Nat.le_of_not_lt hfront)
    rw [hmin,charAt_append_right]
    by_cases hmodel : j < names.model.length+1
    · rw [← Nat.add_assoc,write_at _ _ (hlen ▸ hmodel)]
      exact charAt_pad names.model 1 j
    · rw [charAt_of_le (by omega)]
      refine (write_of_not _ _ (Or.inr (by omega))).trans (copied_behind h hi ?_)
      rw [Names.leftover,List.length_append]
      omega

theorem roomy_succ (names : Names) (k : ℕ) : names.Roomy (k+1) ↔
    names.Roomy k ∧ 1+min (maxSerialLen-1) (names.before k).length+names.model.length < maxSerialLen := by
  have hvendor := names.vendor_len
  have hmodel := names.model_len
  rw [Names.Roomy,Names.Roomy,Nat.succ_mul]
  simp only [maxSerialLen,vendorLength,modelLength] at hvendor hmodel ⊢
  by_cases hfull : names.vendor.length = vendorLength
  · rw [before_length hfull]
    simp only [vendorLength] at hfull ⊢
    omega
  · rw [Names.before,if_neg hfull]
    simp only [vendorLength] at hfull
    omega

theorem prepend_left (h : Left names k f) : Left names (k+1) (prependVendorModel names f 1).2 := by
  refine ⟨fun i hi => prepend_holds h hi,?_⟩
  rw [prepend_eq h,inside_write,Field.strncpy,vendor_copy,inside_write,vendor_copy_length,h.inside,roomy_succ,and_assoc]
  refine and_congr_right fun _ => ?_
  rw [List.length_append,List.length_singleton]
  have hcopy : 1+vendorLength ≤ maxSerialLen := by decide
  omega

theorem prepend_ok (h : Left names k f) : (prependVendorModel names f 1).1 = decide (names.Full (k+1)) := by
  have hstrlen := (prepend_left h).strlen
  rw [prependVendorModel] at hstrlen
  rw [prependVendorModel,Bool.eq_iff_iff,decide_eq_true_iff,decide_eq_true_iff,hstrlen,Names.Full,maxSerialLen,
    vendorLength,modelLength]
  omega

theorem prepend_first (h : Left names k f) : (prependVendorModel names f 1).2.mem 0 = f.mem 0 := by
  rw [prepend_eq h,write_mem,write_of_not _ _ (Or.inl (by omega)),Field.strncpy,write_mem]
  exact write_of_not _ _ (Or.inl Nat.zero_lt_one)

end Prepend

end Scsi
end Udev
