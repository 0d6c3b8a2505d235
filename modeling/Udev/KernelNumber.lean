import Udev.Receive
import Mathlib.Data.List.Chain
import Mathlib.Data.List.DropRight

/-! The number at the end of the kernel name, over the calls of `udev_device_set_syspath` on one
device: the loop that looks for it, and the number that the name has. -/
namespace Udev
namespace Device

open CString Text

/-- The loop over the trailing digits: its counter, and the place that `sysnum` was set to. -/
def numberLoop (sysname : CString) : ℕ → Option ℕ → ℕ × Option ℕ
  | 0, start => (0,start)
  | len+1, start => if isdigit (charAt sysname len) then numberLoop sysname len (some len) else (len,start)

/-- The number behind the loop and the test for a name of digits, from the number that was set. -/
def scanNumber (sysname : CString) (sysnum : Option CString) : Option CString :=
  let r := numberLoop sysname sysname.length none
  let sysnum := r.2.elim sysnum fun start => some (sysname.drop start)
  -- sysname is completely numeric
  if r.1 = 0 then none else sysnum

def nameOf (syspath : CString) : CString := (lastPart syspath).map fun c => if c = chr '!' then chr '/' else c

/-- `udev_device_set_syspath` with what it returns. A path without a slash is kept as the path of
the device, but the name and the number are not changed. -/
def udevDeviceSetSyspath (d : Device) (syspath : CString) : Device × ℤ :=
  let d := { d with syspath := syspath, devpath := syspath.drop 4 }.setProperty (str "DEVPATH") (syspath.drop 4)
  if chr '/' ∉ syspath then (d,-22)
  else ({ d with sysname := nameOf syspath, sysnum := scanNumber (nameOf syspath) d.sysnum },0)

def afterCalls (d : Device) : List CString → List Device
  | [] => []
  | p::paths => (udevDeviceSetSyspath d p).1::afterCalls (udevDeviceSetSyspath d p).1 paths

/-- The longest end of the name that has only digits; not set when it is empty or the name. -/
def kernelNumber (sysname : CString) : Option CString :=
  let digits := sysname.rtakeWhile isdigit
  if digits = [] ∨ digits = sysname then none else some digits

/-- The names of which the loop finds the number, behind another name of the same device: not one
character with digits behind it, and without digits only behind a name without a number. -/
def Follows (before sysname : CString) : Prop :=
  let digits := sysname.rtakeWhile isdigit
  (digits ≠ [] → sysname.length ≠ digits.length+1) ∧
    (digits = [] → 2 ≤ sysname.length → kernelNumber before = none)

def namesOf (paths : List CString) : List CString := (paths.filter (chr '/' ∈ ·)).map nameOf

/-- The loop stops in front of the digits, one further when there is another character. -/
theorem numberLoop_eq (sysname : CString) {len : ℕ} (start : Option ℕ) (hlen : len ≤ sysname.length) :
    numberLoop sysname len start =
      let digits := ((sysname.take len).rtakeWhile isdigit).length
      (len-digits-1,if digits = 0 then start else some (len-digits)) := by
  induction len generalizing start with
  | zero => simp [numberLoop,List.rtakeWhile]
  | succ len ih =>
    have hlt : len < sysname.length := hlen
    have htake : sysname.take (len+1) = sysname.take len ++ [charAt sysname len] := by
      rw [← List.take_append_getElem hlt,charAt,List.getD_eq_getElem _ _ hlt]
    rw [numberLoop,htake,List.rtakeWhile_concat]
    by_cases hdigit : isdigit (charAt sysname len) = true
    · rw [if_pos hdigit,if_pos hdigit,ih (some len) (Nat.le_of_succ_le hlen)]
      simp only [List.length_append,List.length_singleton,Nat.add_sub_add_right,Nat.add_eq_zero_iff,
        Nat.one_ne_zero,and_false,if_false]
      congr 1
      split_ifs with hnone
      · rw [hnone,Nat.sub_zero]
      · rfl
    · rw [if_neg hdigit,if_neg hdigit]
      simp

/-- The test behind the loop is also met by a name with one character in front of its digits. -/
theorem scanNumber_eq (sysname : CString) (sysnum : Option CString) :
    scanNumber sysname sysnum =
      let digits := sysname.rtakeWhile isdigit
      if sysname.length-digits.length ≤ 1 then none else if digits = [] then sysnum else some digits := by
  have hdrop : sysname.drop (sysname.length-(sysname.rtakeWhile isdigit).length) = sysname.rtakeWhile isdigit :=
    (List.suffix_iff_eq_drop.mp (List.rtakeWhile_suffix isdigit sysname)).symm
  rw [scanNumber,numberLoop_eq _ none (Nat.le_refl _),List.take_length]
  simp only [List.length_eq_zero_iff,Nat.sub_eq_zero_iff_le]
  congr 1
  split_ifs with hnone
  · rfl
  · exact congrArg some hdrop

theorem setSyspath_sysnum (d : Device) (p : CString) : (setSyspath d p).sysnum = scanNumber (nameOf p) d.sysnum := by
  have hlength : ((nameOf p).reverse.takeWhile isdigit).length = ((nameOf p).rtakeWhile isdigit).length := by
    rw [List.rtakeWhile,List.length_reverse]
  have hnil : (nameOf p).reverse.takeWhile isdigit = [] ↔ (nameOf p).rtakeWhile isdigit = [] :=
    List.reverse_eq_nil_iff.symm
  rw [scanNumber_eq]
  simp only [← hlength,← hnil]
  rfl

theorem udevDeviceSetSyspath_of_slash {p : CString} (d : Device) (h : chr '/' ∈ p) :
    udevDeviceSetSyspath d p = (setSyspath d p,0) := by
  have hcall : udevDeviceSetSyspath d p = ({ setSyspath d p with sysnum := scanNumber (nameOf p) d.sysnum },0) := by
    rw [udevDeviceSetSyspath,if_neg (not_not_intro h)]
    rfl
  rw [hcall,← setSyspath_sysnum]

theorem udevDeviceSetSyspath_of_no_slash {p : CString} (d : Device) (h : chr '/' ∉ p) :
    (udevDeviceSetSyspath d p).1.sysname = d.sysname ∧ (udevDeviceSetSyspath d p).1.sysnum = d.sysnum := by
  rw [udevDeviceSetSyspath,if_pos h]
  exact ⟨rfl,rfl⟩

/-- Behind the right number of another name, the number is right if and only if the name can follow. -/
theorem scanNumber_eq_kernelNumber (before sysname : CString) :
    scanNumber sysname (kernelNumber before) = kernelNumber sysname ↔ Follows before sysname := by
  have hsuffix : sysname.rtakeWhile isdigit <:+ sysname := List.rtakeWhile_suffix isdigit sysname
  have hle := hsuffix.length_le
  have hwhole : sysname.rtakeWhile isdigit = sysname ↔ sysname.length ≤ (sysname.rtakeWhile isdigit).length := by
    constructor
    · intro heq
      rw [heq]
    · intro hlen
      exact hsuffix.eq_of_length_le hlen
  rw [scanNumber_eq]
  unfold Follows
  rw [kernelNumber.eq_def sysname]
  simp only [hwhole]
  by_cases hnone : sysname.rtakeWhile isdigit = []
  · have hlen : (sysname.rtakeWhile isdigit).length = 0 := List.length_eq_zero_iff.mpr hnone
    rw [if_pos (Or.inl hnone),hlen,Nat.sub_zero]
    by_cases htwo : 2 ≤ sysname.length
    · rw [if_neg (by omega),if_pos hnone]
      exact ⟨fun h => ⟨fun hsome => absurd hnone hsome,fun _ _ => h⟩,fun h => h.2 hnone htwo⟩
    · rw [if_pos (by omega)]
      exact iff_of_true rfl ⟨fun hsome => absurd hnone hsome,fun _ h => absurd h htwo⟩
  · have hlen : (sysname.rtakeWhile isdigit).length ≠ 0 := fun h => hnone (List.length_eq_zero_iff.mp h)
    by_cases hone : sysname.length = (sysname.rtakeWhile isdigit).length+1
    · rw [if_pos (by omega),if_neg (by rw [not_or]; exact ⟨hnone,by omega⟩)]
      exact iff_of_false (by simp) (fun h => h.1 hnone hone)
    · refine iff_of_true ?_ ⟨fun _ => hone,fun h => absurd h hnone⟩
      by_cases hall : sysname.length ≤ (sysname.rtakeWhile isdigit).length
      · rw [if_pos (by omega),if_pos (Or.inr hall)]
      · rw [if_neg (by omega),if_neg hnone,if_neg (not_or.mpr ⟨hnone,hall⟩)]

/-- From a device with the right number, all devices of the calls have it if and only if each name
can follow the one before it. -/
theorem afterCalls_sysnum {d : Device} (hd : d.sysnum = kernelNumber d.sysname) (paths : List CString) :
    (∀ e ∈ afterCalls d paths, e.sysnum = kernelNumber e.sysname) ↔
      List.IsChain Follows (d.sysname::namesOf paths) := by
  induction paths generalizing d with
  | nil => exact iff_of_true (fun e he => absurd he List.not_mem_nil) (List.isChain_singleton _)
  | cons p paths ih =>
    rw [afterCalls,List.forall_mem_cons]
    by_cases hslash : chr '/' ∈ p
    · have hnames : namesOf (p::paths) = nameOf p::namesOf paths := by simp [namesOf,hslash]
      have hnum : (setSyspath d p).sysnum = kernelNumber (nameOf p) ↔ Follows d.sysname (nameOf p) := by
        rw [setSyspath_sysnum,hd]
        exact scanNumber_eq_kernelNumber d.sysname (nameOf p)
      rw [udevDeviceSetSyspath_of_slash d hslash,hnames,List.isChain_cons_cons,← hnum]
      exact and_congr_right fun h => ih h
    · obtain ⟨hname,hnum⟩ := udevDeviceSetSyspath_of_no_slash d hslash
      have hnames : namesOf (p::paths) = namesOf paths := by simp [namesOf,hslash]
      have hright : (udevDeviceSetSyspath d p).1.sysnum = kernelNumber (udevDeviceSetSyspath d p).1.sysname := by
        rw [hname,hnum,hd]
      rw [hnames,ih hright,and_iff_right hright,hname]

/-- Over the calls on a new device the number is always the one of the name if and only if no name
has one character in front of its digits, and no name without digits (of two characters or more)
comes directly behind a name with a number. -/
theorem sysnum_current_iff (paths : List CString) :
    (∀ d ∈ afterCalls {} paths, d.sysnum = kernelNumber d.sysname) ↔ List.IsChain Follows ([]::namesOf paths) :=
  afterCalls_sysnum rfl paths

/-- A network interface that is renamed keeps the number of its old name. -/
theorem renamed_keeps_number :
    ¬∀ d ∈ afterCalls {} [str "/sys/class/net/eth0",str "/sys/class/net/wan"], d.sysnum = kernelNumber d.sysname := by
  decide +kernel

end Device
end Udev
