import Udev.Memory

/-! The features that a drive replies to `GET CONFIGURATION`. The walk over the features stops at the
length that the drive reports, the walk over the profiles of a feature at the length of the feature. -/
namespace Udev
namespace CdProfiles

open CString

/-- `sizeof(features)` -/
def featuresSize : ℕ := 65530

/-- What the drive can do, in the order of the profiles. -/
inductive Flag
  | mo | cdRom | cdR | cdRw | dvdRom | dvdRam | dvdRw | dvdPlusR | dvdPlusRw | dvdPlusRwDl | dvdPlusRDl
  | bd | bdR | bdRe | hddvd | hddvdR | hddvdRw
  deriving DecidableEq, Repr

def profileFlag : ℕ → Option Flag
  | 0x03 | 0x04 | 0x05 => some .mo
  | 0x08 => some .cdRom
  | 0x09 => some .cdR
  | 0x0a => some .cdRw
  | 0x10 => some .dvdRom
  | 0x12 => some .dvdRam
  | 0x13 | 0x14 => some .dvdRw
  | 0x1b => some .dvdPlusR
  | 0x1a => some .dvdPlusRw
  | 0x2a => some .dvdPlusRwDl
  | 0x2b => some .dvdPlusRDl
  | 0x40 => some .bd
  | 0x41 | 0x42 => some .bdR
  | 0x43 => some .bdRe
  | 0x50 => some .hddvd
  | 0x51 => some .hddvdR
  | 0x52 => some .hddvdRw
  | _ => none

structure Walk where
  reads : List ℕ := []
  flags : List Flag := []
  deriving DecidableEq, Repr

def Walk.read (w : Walk) (is : List ℕ) : Walk := { w with reads := w.reads ++ is }

/-- The two bytes from `i` on as a number. -/
def code (m : Memory) (i : ℕ) : ℕ := (m i).toNat*256+(m (i+1)).toNat

/-- The length of the feature at `i` behind its header. -/
def featureSize (m : Memory) (i : ℕ) : ℕ := (m (i+3)).toNat

/-- The loop of `feature_profiles`; `none` when it has not come to its end. -/
def profileLoop (m : Memory) (profiles size : ℕ) : ℕ → ℕ → Walk → Option Walk
  | 0, _, _ => none
  | n+1, i, w =>
    if i+4 ≤ size then
      let w := w.read [profiles+i,profiles+i+1]
      profileLoop m profiles size n (i+4) { w with flags := w.flags ++ (profileFlag (code m (profiles+i))).toList }
    else some w

def featureProfiles (m : Memory) (profiles size : ℕ) (w : Walk) : Option Walk := profileLoop m profiles size (size+1) 0 w

/-- The loop over the features from `i` on. -/
def featureLoop (m : Memory) (len : ℕ) : ℕ → ℕ → Walk → Option Walk
  | 0, _, _ => none
  | n+1, i, w =>
    if i+4 < len then
      let w := w.read [i,i+1,i+3]
      (if code m i = 0 then featureProfiles m (i+4) (featureSize m i) w else some w).bind
        (featureLoop m len n (i+4+featureSize m i))
    else some w

def reportedLength (m : Memory) : ℕ :=
  (m 0).toNat*2^24+(m 1).toNat*2^16+(m 2).toNat*2^8+(m 3).toNat

def clampedLength (m : Memory) : ℕ := if reportedLength m > featuresSize then featuresSize else reportedLength m

/-- The device features in `cd_profiles`, from the reply in `features`. -/
def featureWalk (m : Memory) : Option Walk := featureLoop m (clampedLength m) (clampedLength m+1) 8 {}

inductive Visited (m : Memory) (len : ℕ) : ℕ → ℕ → Prop
  | here {i : ℕ} (h : i+4 < len) : Visited m len i i
  | next {i j : ℕ} (h : i+4 < len) (hj : Visited m len (i+4+featureSize m i) j) : Visited m len i j

/-- The last profile of the feature ends before the length, if the feature has any. -/
def ProfilesFit (m : Memory) (len i : ℕ) : Prop := featureSize m i < 4 ∨ i+4*(featureSize m i/4)+1 < len

def Walk.Below (w : Walk) (len : ℕ) : Prop := ∀ r ∈ w.reads, r < len

variable {m : Memory} {len i n : ℕ} {w : Walk}

theorem below_read {is : List ℕ} : (w.read is).Below len ↔ w.Below len ∧ ∀ r ∈ is, r < len := by
  unfold Walk.Below Walk.read
  rw [List.forall_mem_append]

theorem profileLoop_below (m : Memory) (profiles size len : ℕ) (hn : size < i+4*n) (hpos : 0 < n) :
    ∃ w', profileLoop m profiles size n i w = some w' ∧
      (w'.Below len ↔ w.Below len ∧ ∀ k, i+4*k+4 ≤ size → profiles+i+4*k+1 < len) := by
  induction n generalizing i w with
  | zero => exact absurd hpos (Nat.lt_irrefl 0)
  | succ n ih =>
    rw [profileLoop]
    by_cases hi : i+4 ≤ size
    · rw [if_pos hi]
      obtain ⟨w',hw',hbelow⟩ := ih (i := i+4)
        (w := { w.read [profiles+i,profiles+i+1] with
          flags := w.flags ++ (profileFlag (code m (profiles+i))).toList }) (by omega) (by omega)
      refine ⟨w',hw',hbelow.trans ?_⟩
      have hread : ∀ flags, ({ w.read [profiles+i,profiles+i+1] with flags := flags } : Walk).Below len ↔
          w.Below len ∧ profiles+i+1 < len := by
        intro flags
        refine (below_read (w := w)).trans (and_congr_right fun _ => ?_)
        rw [List.forall_mem_cons,List.forall_mem_singleton]
        omega
      rw [hread,and_assoc]
      refine and_congr_right fun _ => ⟨fun ⟨hfirst,hall⟩ k hk => ?_,fun hall => ⟨?_,fun k hk => ?_⟩⟩
      · cases k with
        | zero => exact hfirst
        | succ k =>
          have := hall k (by omega)
          omega
      · exact hall 0 (by omega)
      · have := hall (k+1) (by omega)
        omega
    · rw [if_neg hi]
      exact ⟨w,rfl,⟨fun h => ⟨h,fun k hk => by omega⟩,fun h => h.1⟩⟩

theorem featureProfiles_below (m : Memory) (len i : ℕ) (w : Walk) :
    ∃ w', featureProfiles m (i+4) (featureSize m i) w = some w' ∧
      (w'.Below len ↔ w.Below len ∧ ProfilesFit m len i) := by
  obtain ⟨w',hw',hbelow⟩ := profileLoop_below m (i+4) (featureSize m i) len (i := 0) (w := w) (n := featureSize m i+1)
    (by omega) (Nat.succ_pos _)
  refine ⟨w',hw',hbelow.trans (and_congr_right fun _ => ⟨fun h => ?_,fun h k hk => ?_⟩)⟩
  · by_cases hsize : featureSize m i < 4
    · exact Or.inl hsize
    · have := h (featureSize m i/4-1) (by omega)
      exact Or.inr (by omega)
  · rcases h with h | h
    · omega
    · omega

/-- The walk ends, and what it reads is below the length where the profiles of every feature that it comes to fit. -/
theorem featureLoop_below (m : Memory) (len : ℕ) (hn : len < i+4*n) (hpos : 0 < n) : ∃ w', featureLoop m len n i w = some w' ∧
    (w'.Below len ↔ w.Below len ∧ ∀ j, Visited m len i j → code m j = 0 → ProfilesFit m len j) := by
  induction n generalizing i w with
  | zero => exact absurd hpos (Nat.lt_irrefl 0)
  | succ n ih =>
    rw [featureLoop]
    by_cases hi : i+4 < len
    · rw [if_pos hi]
      have hhead : (w.read [i,i+1,i+3]).Below len ↔ w.Below len := by
        rw [below_read,List.forall_mem_cons,List.forall_mem_cons,List.forall_mem_singleton]
        exact and_iff_left (by omega)
      have hfeature : ∃ v, (if code m i = 0 then featureProfiles m (i+4) (featureSize m i) (w.read [i,i+1,i+3])
          else some (w.read [i,i+1,i+3])) = some v ∧ (v.Below len ↔ w.Below len ∧ (code m i = 0 → ProfilesFit m len i)) := by
        by_cases hcode : code m i = 0
        · obtain ⟨v,hv,hbelow⟩ := featureProfiles_below m len i (w.read [i,i+1,i+3])
          rw [if_pos hcode]
          refine ⟨v,hv,?_⟩
          rw [hbelow,hhead]
          exact and_congr_right fun _ => ⟨fun h _ => h,fun h => h hcode⟩
        · rw [if_neg hcode]
          exact ⟨_,rfl,hhead.trans ⟨fun h => ⟨h,fun h0 => absurd h0 hcode⟩,fun h => h.1⟩⟩
      obtain ⟨v,hv,hbelow⟩ := hfeature
      obtain ⟨w',hw',hrest⟩ := ih (i := i+4+featureSize m i) (w := v) (by omega) (by omega)
      refine ⟨w',?_,hrest.trans ?_⟩
      · dsimp only
        rw [hv]
        exact hw'
      · rw [hbelow,and_assoc]
        refine and_congr_right fun _ => ⟨fun ⟨hhere,hnext⟩ j hj => ?_,fun h => ⟨h i (.here hi),fun j hj => h j (.next hi hj)⟩⟩
        cases hj with
        | here => exact hhere
        | next _ hj => exact hnext j hj
    · rw [if_neg hi]
      refine ⟨w,rfl,⟨fun h => ⟨h,fun j hj => ?_⟩,fun h => h.1⟩⟩
      cases hj with
      | here h => exact absurd h hi
      | next h _ => exact absurd h hi

theorem clampedLength_le (m : Memory) : clampedLength m ≤ featuresSize := by
  unfold clampedLength
  split_ifs with h
  · exact le_rfl
  · exact Nat.le_of_not_lt h

/-- The walk always ends; it reads only bytes below the reported length, and so of the array, if and only if the
last profile of every feature of profiles that it comes to does. -/
theorem cd_profiles_reads (m : Memory) : ∃ w, featureWalk m = some w ∧
    ((∀ r ∈ w.reads, r < clampedLength m ∧ r < featuresSize) ↔
      ∀ i, Visited m (clampedLength m) 8 i → code m i = 0 → ProfilesFit m (clampedLength m) i) := by
  obtain ⟨w,hw,hbelow⟩ := featureLoop_below m (clampedLength m) (i := 8) (n := clampedLength m+1) (w := {}) (by omega)
    (Nat.succ_pos _)
  have hle := clampedLength_le m
  refine ⟨w,hw,?_⟩
  have hstart : ({} : Walk).Below (clampedLength m) := fun r hr => absurd hr List.not_mem_nil
  rw [← (hbelow.trans (and_iff_right hstart))]
  exact forall₂_congr fun r _ => and_iff_left_of_imp fun h => h.trans_le hle

/-- A drive that reports 13 bytes with a feature of one profile: its second byte is the one at 13. -/
def shortReply : Memory := charAt [0,0,0,13,0,0,0,0,0,0,0,4,0,8]

theorem cd_profiles_reads_beyond : ¬∀ m : Memory, ∃ w, featureWalk m = some w ∧
    ∀ r ∈ w.reads, r < clampedLength m ∧ r < featuresSize := by
  intro h
  obtain ⟨w,hw,hall⟩ := h shortReply
  have hwalk : featureWalk shortReply = some { reads := [8,9,11,12,13], flags := [.cdRom] } := by decide +kernel
  obtain rfl := Option.some.inj (hwalk.symm.trans hw)
  exact absurd (hall 13 (by decide)).1 (by decide)

end CdProfiles
end Udev
