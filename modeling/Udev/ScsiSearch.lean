import Udev.ScsiPrefix
import Mathlib.Data.List.TakeWhile

/-! The search for an identifier in page 0x83. Which descriptor is taken depends on the page, on the names
and on the number of attempts to prepend the names so far, and not on anything else in the device. -/
namespace Udev
namespace Scsi

open CString Memory SearchLoop

section Checks

theorem runChecks_snd (l : List (List ℕ × Bool)) : (runChecks l).2 = l.all (·.2) := by
  induction l with
  | nil => rfl
  | cons c l ih =>
    obtain ⟨reads,ok⟩ := c
    rw [runChecks,List.all_cons]
    cases ok with
    | false => rfl
    | true => exact ih

/-- A descriptor is of the kind of a line of the search list, and there is room for its identifier. -/
def fits (page : Memory) (j : ℕ) (id : SearchValues) : Bool := (checks page j id).all (·.2)

theorem fits_iff {page : Memory} {j : ℕ} {id : SearchValues} : fits page j id = true ↔
    associated page j id = true ∧ page (j+1) &&& 0x0f = id.idType ∧
      (id.naaType = scsiIdNaaDontCare ∨ id.naaType = (page (j+4) &&& 0xf0) >>> 4) ∧
      page j &&& 0x0f = id.codeSet ∧ needed page j id ≤ maxSerialLen := by
  rw [fits,checks]
  simp only [List.all_cons,List.all_nil,Bool.and_true,Bool.and_eq_true,decide_eq_true_iff]

theorem address_lines : ∀ id ∈ idSearchList, id.naaType ≠ scsiIdNaaDontCare → id.idType = scsiIdNaa := by decide

theorem hexStr_ne_zero (c : UInt8) : hexStr (c &&& 0x0f) ≠ 0 := by
  revert c
  exact forall_byte (by decide +kernel)

end Checks

section Lengths

theorem hexPairs_length (s : CString) : (s.flatMap hexPair).length = s.length*2 := by
  have hpair : ∀ c, (hexPair c).length = 2 := fun _ => rfl
  rw [List.length_flatMap]
  simp only [hpair,List.map_const',List.sum_replicate_nat]

theorem prespc3_room (page : Memory) (j : ℕ) (h : 0 < (prespc3Bytes page j).length) :
    j+2*((prespc3Bytes page j).length-1) < maxSerialLen-3 := by
  rw [prespc3Bytes,List.length_map] at h ⊢
  have hprefix := List.takeWhile_prefix (fun i => decide (j+2*i < maxSerialLen-3)) (l := List.range (page 3).toNat)
  have hle := hprefix.length_le
  rw [List.length_range] at hle
  have hrange := (List.prefix_iff_eq_take.mp hprefix).trans (by rw [List.take_range,Nat.min_eq_left hle])
  have hmem := List.mem_range.mpr (Nat.sub_lt h Nat.zero_lt_one)
  rw [← hrange] at hmem
  exact of_decide_eq_true (List.mem_takeWhile_imp (p := fun i => decide (j+2*i < maxSerialLen-3)) hmem)

end Lengths

section Abstract

variable (names : Names) (page : Memory)

/-- What happens to a descriptor: a target port group is never taken, and a vendor specific identifier
when the names in front of it have the full length. -/
def attempt (c : SearchValues × ℕ) (k : ℕ) : Bool × ℕ :=
  if fits page c.2 c.1 = true ∧ c.1.idType ≠ scsiIdTgtgroup then
    if c.1.idType = scsiIdVendorSpecific then (decide (names.Full (k+1)),k+1) else (true,k)
  else (false,k)

/-- The lines of the search list with the descriptors, in the order of the search. -/
def candidates : List (SearchValues × ℕ) := idSearchList.flatMap fun id => (walk page 4).map (id,·)

def taken (k : ℕ) : Option (SearchValues × ℕ) × ℕ := pick (attempt names page) (candidates page) k

theorem search_pairs (st : Scan) :
    searchLoop (fun id => searchLoop (tryDescriptor names page id) (walk page 4)) idSearchList st =
      searchLoop (fun c => tryDescriptor names page c.1 c.2) (candidates page) st := searchLoop_pairs _ _ _ _

end Abstract

section Front

def front (names : Names) (idType : UInt8) (serial : Field) : Field :=
  let serial := serial.write 0 [hexStr idType]
  if idType = scsiIdVendorSpecific then (prependVendorModel names serial 1).2 else serial

variable {names : Names} {k : ℕ} {f : Field}

theorem front_first (hleft : Left names k f) (idType : UInt8) : (front names idType f).mem 0 = hexStr idType := by
  have hfirst : (f.write 0 [hexStr idType]).mem 0 = hexStr idType := rfl
  rw [front]
  by_cases hvendor : idType = scsiIdVendorSpecific
  · rw [if_pos hvendor,prepend_first (hleft.write_zero _),hfirst]
  · rw [if_neg hvendor,hfirst]

theorem Left.length (h : Left names k f) (hfirst : f.mem 0 ≠ 0) :
    f.strlen 0 = 1+min (maxSerialLen-1) (names.leftover k).length := by
  have htext : f.text 0 = (f.mem 0::names.leftover k).take maxSerialLen := by
    refine textFrom_take (fun i hi _ => ?_) ?_
    · cases i with
      | zero => rfl
      | succ i =>
        rw [Nat.zero_add]
        exact (congrArg f.mem (Nat.add_comm i 1)).trans (h.holds i (Nat.lt_sub_of_add_lt hi))
    · rw [List.mem_cons,not_or]
      exact ⟨Ne.symm hfirst,leftover_nul⟩
  rw [Field.strlen,htext,List.length_take,List.length_cons]
  have hsize : 1 ≤ maxSerialLen := by decide
  omega

variable {bytes : CString}

theorem filled_at (h : Left names k f) (hfirst : f.mem 0 ≠ 0) {i : ℕ} (hi : 1+(names.leftover k).length+i < maxSerialLen) :
    (f.write (f.strlen 0) bytes).mem (1+(names.leftover k).length+i) = charAt bytes i := by
  have hlen : f.strlen 0 = 1+(names.leftover k).length := by
    rw [h.length hfirst]
    omega
  rw [hlen,write_mem]
  by_cases hin : i < bytes.length
  · exact write_at _ _ hin
  · rw [write_of_not _ _ (by omega),Nat.add_assoc,h.holds _ (by omega),charAt_of_le (Nat.le_add_right _ _),
      charAt_of_le (Nat.le_of_not_lt hin)]

end Front

section Steps

variable {names : Names} {page : Memory} {id : SearchValues} {j k : ℕ} {st : Scan}

theorem check_rejected (h : fits page j id = false) :
    checkFill0x83Id page j names id st = (false,st.read (runChecks (checks page j id)).1) := by
  rw [checkFill0x83Id,if_pos ((runChecks_snd _).trans h)]

theorem fits_check (h : fits page j id = true) : (runChecks (checks page j id)).2 ≠ false := by
  rw [runChecks_snd]
  exact Bool.ne_false_iff.mpr h

def Scan.group (st : Scan) (page : Memory) (j : ℕ) (id : SearchValues) : Scan :=
  { ((st.read (runChecks (checks page j id)).1).read [j+6,j+7]).use j with
    dev := { st.dev with tgptGroup := (Nat.toDigits 16 ((page (j+6)).toNat*256+(page (j+7)).toNat)).map chr } }

theorem check_group (h : fits page j id = true) (hgroup : id.idType = scsiIdTgtgroup) :
    checkFill0x83Id page j names id st = (false,st.group page j id) := by
  rw [checkFill0x83Id,if_neg (fits_check h),if_pos hgroup]
  rfl

theorem check_taken (hleft : Left names k st.dev.serial) (h : (attempt names page (id,j) k).1 = true) :
    checkFill0x83Id page j names id st =
      (true,fillIdentifier page j id (front names id.idType st.dev.serial) (st.read (runChecks (checks page j id)).1)) := by
  rw [attempt] at h
  by_cases hfits : fits page j id = true ∧ id.idType ≠ scsiIdTgtgroup
  · rw [if_pos hfits] at h
    rw [checkFill0x83Id,if_neg (fits_check hfits.1),if_neg hfits.2,front]
    by_cases hvendor : id.idType = scsiIdVendorSpecific
    · rw [if_pos hvendor] at h
      have hok := (prepend_ok (hleft.write_zero (hexStr id.idType))).trans h
      rw [if_pos hvendor,if_pos hvendor]
      exact if_neg (Bool.ne_false_iff.mpr hok)
    · rw [if_neg hvendor,if_neg hvendor]
      rfl
  · rw [if_neg hfits] at h
    cases h

theorem front_left {f : Field} (hleft : Left names k f) (h : (attempt names page (id,j) k).1 = true) :
    Left names (attempt names page (id,j) k).2 (front names id.idType f) := by
  rw [attempt] at h ⊢
  rw [front]
  have hfront := hleft.write_zero (hexStr id.idType)
  by_cases hfits : fits page j id = true ∧ id.idType ≠ scsiIdTgtgroup
  · rw [if_pos hfits]
    by_cases hvendor : id.idType = scsiIdVendorSpecific
    · rw [if_pos hvendor,if_pos hvendor]
      exact prepend_left hfront
    · rw [if_neg hvendor,if_neg hvendor]
      exact hfront
  · rw [if_neg hfits] at h
    cases h

/-- The fields that an attempt does not touch. -/
def ScsiIdDevice.rest (dev : ScsiIdDevice) : Field × Field × Field × Field :=
  (dev.serialShort,dev.unitSerialNumber,dev.wwn,dev.wwnVendorExtension)

theorem check_vendor (hleft : Left names k st.dev.serial) (hfits : fits page j id = true)
    (hvendor : id.idType = scsiIdVendorSpecific) (hfull : ¬names.Full (k+1)) :
    checkFill0x83Id page j names id st = (false,{ st.read (runChecks (checks page j id)).1 with
      dev := { st.dev with serial := front names id.idType st.dev.serial } }) := by
  have hgroup : id.idType ≠ scsiIdTgtgroup := by
    rw [hvendor]
    decide
  have hok := (prepend_ok (hleft.write_zero (hexStr id.idType))).trans (decide_eq_false hfull)
  rw [checkFill0x83Id,if_neg (fits_check hfits),if_neg hgroup,if_pos hvendor,front,if_pos hvendor]
  exact if_pos hok

theorem attempt_accepted {c : SearchValues × ℕ} (h : (attempt names page c k).1 = true) :
    fits page c.2 c.1 = true ∧ c.1.idType ≠ scsiIdTgtgroup := by
  by_contra hne
  rw [attempt,if_neg hne] at h
  cases h

theorem attempt_failed (h : (attempt names page (id,j) k).1 = false) (hfits : fits page j id = true)
    (hgroup : id.idType ≠ scsiIdTgtgroup) : id.idType = scsiIdVendorSpecific ∧ ¬names.Full (k+1) := by
  rw [attempt,if_pos ⟨hfits,hgroup⟩] at h
  by_cases hvendor : id.idType = scsiIdVendorSpecific
  · rw [if_pos hvendor] at h
    exact ⟨hvendor,of_decide_eq_false h⟩
  · rw [if_neg hvendor] at h
    cases h

theorem check_failed (hleft : Left names k st.dev.serial) (h : (attempt names page (id,j) k).1 = false) :
    (checkFill0x83Id page j names id st).1 = false ∧
      Left names (attempt names page (id,j) k).2 (checkFill0x83Id page j names id st).2.dev.serial ∧
      (checkFill0x83Id page j names id st).2.dev.rest = st.dev.rest := by
  by_cases hfits : fits page j id = true
  · by_cases hgroup : id.idType = scsiIdTgtgroup
    · rw [check_group hfits hgroup,attempt,if_neg fun h => h.2 hgroup]
      exact ⟨rfl,hleft,rfl⟩
    · obtain ⟨hvendor,hfull⟩ := attempt_failed h hfits hgroup
      rw [check_vendor hleft hfits hvendor hfull,front,if_pos hvendor,attempt,if_pos ⟨hfits,hgroup⟩,if_pos hvendor]
      exact ⟨rfl,prepend_left (hleft.write_zero _),rfl⟩
  · rw [Bool.not_eq_true] at hfits
    rw [check_rejected hfits,attempt,if_neg fun h => Bool.false_ne_true (hfits.symm.trans h.1)]
    exact ⟨rfl,hleft,rfl⟩

theorem tryDescriptor_taken (hleft : Left names k st.dev.serial) (h : (attempt names page (id,j) k).1 = true) :
    tryDescriptor names page id j st =
      (true,fillIdentifier page j id (front names id.idType st.dev.serial) (st.read (runChecks (checks page j id)).1)) := by
  rw [tryDescriptor,check_taken hleft h]
  rfl

theorem tryDescriptor_failed (hleft : Left names k st.dev.serial) (h : (attempt names page (id,j) k).1 = false) :
    tryDescriptor names page id j st = (false,(checkFill0x83Id page j names id st).2.read [j+3]) := by
  rw [tryDescriptor,(check_failed hleft h).1]
  rfl

variable (names page st) in
/-- What every failing attempt keeps of the device holds along the search, and what the accepted one makes of it holds
at its end. -/
theorem search_rel {R : ScsiIdDevice → ℕ → Prop} {Q : SearchValues × ℕ → ScsiIdDevice → ℕ → Prop}
    (hleft : ∀ dev k, R dev k → Left names k dev.serial)
    (htaken : ∀ c dev k, R dev k → (attempt names page c k).1 = true →
      Q c (fillDevice (converted page c.2) c.1.idType (front names c.1.idType dev.serial) dev) (attempt names page c k).2)
    (hfailed : ∀ c (st : Scan) k, R st.dev k → (attempt names page c k).1 = false →
      R (checkFill0x83Id page c.2 names c.1 st).2.dev (attempt names page c k).2) (h : R st.dev k) :
    (pick (fun c => tryDescriptor names page c.1 c.2) (candidates page) st).1 = (taken names page k).1 ∧
      ((taken names page k).1 = none →
        R (pick (fun c => tryDescriptor names page c.1 c.2) (candidates page) st).2.dev (taken names page k).2) ∧
      ∀ c, (taken names page k).1 = some c →
        Q c (pick (fun c => tryDescriptor names page c.1 c.2) (candidates page) st).2.dev (taken names page k).2 := by
  refine pick_rel (R := fun (st : Scan) k => R st.dev k) (Q := fun c (st : Scan) k => Q c st.dev k)
    (fun c st k hst => ?_) (candidates page) h
  by_cases hc : (attempt names page c k).1 = true
  · rw [hc,tryDescriptor_taken (hleft _ _ hst) hc]
    exact ⟨rfl,fun h => absurd h.symm Bool.false_ne_true,fun _ => htaken c st.dev k hst hc⟩
  · rw [Bool.not_eq_true] at hc
    rw [hc,tryDescriptor_failed (hleft _ _ hst) hc]
    exact ⟨rfl,fun _ => hfailed c st k hst hc,fun h => absurd h Bool.false_ne_true⟩

end Steps

end Scsi
end Udev
