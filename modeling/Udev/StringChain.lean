import Udev.Memory
import Udev.Text

/-! Chains of `strpcpy`, `strpcpyf` and `strpcpyl` that pass the place and the size on. The
places are integers from the begin of some object on, since a buffer may be left on both
sides. A formatted copy that is cut off puts the place behind the buffer. -/
namespace Udev
namespace StringChain

open CString Text

/-- The memory, the place of the next byte, the size that is passed on, and the places that
were written. -/
structure Dest where
  mem : ℤ → UInt8
  pos : ℤ
  size : ℕ
  writes : List ℤ

namespace Dest

def put (d : Dest) (s : CString) : Dest :=
  { d with
    mem := fun i => if d.pos ≤ i ∧ i < d.pos+s.length then charAt s (i-d.pos).toNat else d.mem i
    writes := d.writes ++ (List.range s.length).map fun (k : ℕ) => d.pos+(k : ℤ) }

def mempcpy (d : Dest) (s : CString) : Dest := { d.put s with pos := d.pos+s.length }

def terminate (d : Dest) : Dest := d.put [0]

end Dest

open Dest

def strpcpy (d : Dest) (src : CString) : Dest :=
  if src.length ≥ d.size then
    { (if d.size > 1 then d.mempcpy (src.take (d.size-1)) else d) with size := 0 }.terminate
  else { d.mempcpy src with size := d.size-src.length }.terminate

/-- `vsnprintf` of a text; the result is an `int`, so that a longer text is an error. -/
def vsnprintf (d : Dest) (text : CString) : Dest × ℤ :=
  (if d.size > 0 then d.put (text.take (d.size-1) ++ [0]) else d,
    if text.length < 2^31 then text.length else -1)

def strpcpyf (d : Dest) (text : CString) : Dest :=
  let r := vsnprintf d text
  if r.2 < toInt32 d.size then { r.1 with pos := d.pos+r.2, size := (d.size-r.2).toNat }.terminate
  else { r.1 with pos := d.pos+d.size, size := 0 }.terminate

def strpcpyl (d : Dest) (src : CString) (srcs : List CString) : Dest := (src::srcs).foldl strpcpy d

inductive Call
  | copy (src : CString) | format (text : CString) | list (src : CString) (srcs : List CString)
  deriving DecidableEq, Repr

def Call.text : Call → CString
  | .copy src => src
  | .format text => text
  | .list src srcs => (src::srcs).flatten

def call (d : Dest) : Call → Dest
  | .copy src => strpcpy d src
  | .format text => strpcpyf d text
  | .list src srcs => strpcpyl d src srcs

def chain (mem : ℤ → UInt8) (size : ℕ) (cs : List Call) : Dest := cs.foldl call ⟨mem,0,size,[]⟩

def texts (cs : List Call) : CString := cs.flatMap Call.text

def HoldsAt (mem : ℤ → UInt8) (b : ℤ) (s : CString) : Prop := ∀ k < s.length, mem (b+k) = charAt s k

/-- What a chain promises for its pieces `t`: the writes are inside of the buffer, which has a part of
`t` with a terminator behind it, and the size tells whether this is all of `t`. -/
def Sound (size : ℕ) (t : CString) (d : Dest) : Prop :=
  (∀ i ∈ d.writes, 0 ≤ i ∧ i < size) ∧
  ∃ p, p <+: t ∧ p.length < size ∧ HoldsAt d.mem 0 p ∧ d.mem p.length = 0 ∧
    (d.size = 0 ↔ p ≠ t) ∧ (d.size ≠ 0 → d.size = size-p.length)

/-- The state of a buffer at `b` behind the pieces `t` while the place is in the buffer. -/
structure Keeps (b : ℤ) (size : ℕ) (t : CString) (d : Dest) : Prop where
  pos : d.pos = b+(t.take (size-1)).length
  room : d.size = size-t.length
  holds : HoldsAt d.mem b (t.take (size-1))
  inside : ∀ i ∈ d.writes, b ≤ i ∧ i < b+size

/-- The state behind a formatted copy that was cut off: the place is behind the buffer. -/
structure Passed (b : ℤ) (size : ℕ) (t : CString) (d : Dest) : Prop where
  pos : d.pos = b+size
  room : d.size = 0
  real : 0 < size
  cut : size ≤ t.length
  holds : HoldsAt d.mem b (t.take (size-1))
  nul : d.mem (b+(size-1 : ℕ)) = 0
  behind : d.mem (b+size) = 0
  inside : ∀ i ∈ d.writes, b ≤ i ∧ i ≤ b+size

/-- The text of a formatted copy has room behind `n` bytes, or there is no room at all. -/
def FormatFits (size n : ℕ) (text : CString) : Prop :=
  if n < size then (text.length : ℤ) < toInt32 (size-n : ℕ) else text.length < 2^31

/-- The text of each formatted copy has room. -/
def Fits (size : ℕ) (cs : List Call) : Prop :=
  ∀ before text after, cs = before ++ .format text::after → FormatFits size (texts before).length text

variable {b : ℤ} {size : ℕ} {t src text : CString} {d d' : Dest} {mem : ℤ → UInt8} {i : ℤ} {s : CString}

theorem mem_put_writes : i ∈ (d.put s).writes ↔ i ∈ d.writes ∨ d.pos ≤ i ∧ i < d.pos+s.length := by
  rw [Dest.put,List.mem_append,List.mem_map]
  refine or_congr Iff.rfl ⟨?_,?_⟩
  · rintro ⟨k,hk,rfl⟩
    have hk := List.mem_range.mp hk
    omega
  · intro h
    exact ⟨(i-d.pos).toNat,List.mem_range.mpr (by omega),by omega⟩

theorem put_of_lt (h : i < d.pos) : (d.put s).mem i = d.mem i := if_neg (by omega)

theorem put_at {k : ℕ} (hk : k < s.length) : (d.put s).mem (d.pos+k) = charAt s k := by
  have hsub : (d.pos+k-d.pos).toNat = k := by omega
  show ite _ _ _ = _
  rw [if_pos (by omega),hsub]

@[simp] theorem put_pos : (d.put s).pos = d.pos := rfl

@[simp] theorem put_size : (d.put s).size = d.size := rfl

@[simp] theorem terminate_pos : d.terminate.pos = d.pos := rfl

@[simp] theorem terminate_size : d.terminate.size = d.size := rfl

theorem terminate_nul : d.terminate.mem d.pos = 0 := by
  have h := put_at (d := d) (s := [0]) (k := 0) Nat.zero_lt_one
  rwa [Nat.cast_zero,Int.add_zero] at h

theorem terminate_of_ne (h : i ≠ d.pos) : d.terminate.mem i = d.mem i :=
  if_neg (by rw [List.length_singleton]; omega)

theorem mem_terminate_writes : i ∈ d.terminate.writes ↔ i ∈ d.writes ∨ i = d.pos := by
  rw [terminate,mem_put_writes,List.length_singleton]
  exact or_congr Iff.rfl (by omega)

theorem HoldsAt.append (h : HoldsAt mem b t) (hs : HoldsAt mem (b+t.length) s) : HoldsAt mem b (t ++ s) := by
  intro k hk
  rw [List.length_append] at hk
  by_cases hlt : k < t.length
  · rw [h k hlt,Memory.charAt_append_left hlt]
  · obtain ⟨j,rfl⟩ := Nat.exists_eq_add_of_le (Nat.le_of_not_lt hlt)
    rw [Nat.cast_add,← Int.add_assoc,hs j (by omega),Memory.charAt_append_right]

theorem HoldsAt.left (h : HoldsAt mem b (t ++ s)) : HoldsAt mem b t := by
  intro k hk
  rw [h k (by rw [List.length_append]; omega),Memory.charAt_append_left hk]

theorem HoldsAt.congr {mem' : ℤ → UInt8} (h : HoldsAt mem b t)
    (hmem : ∀ i, b ≤ i → i < b+t.length → mem' i = mem i) : HoldsAt mem' b t := by
  intro k hk
  rw [hmem _ (by omega) (by omega),h k hk]

theorem holdsAt_put : HoldsAt (d.put s).mem d.pos s := fun _ hk => put_at hk

/-- One copy, whatever it writes up to the new place, keeps the state of the buffer. -/
theorem Keeps.append (hd : Keeps b size t d) (hsize : 0 < size)
    (hpos : d'.pos = d.pos+(src.take (d.size-1)).length) (hroom : d'.size = d.size-src.length)
    (hmem : ∀ i < d.pos, d'.mem i = d.mem i) (hnew : HoldsAt d'.mem d.pos (src.take (d.size-1)))
    (hwrites : ∀ i ∈ d'.writes, i ∈ d.writes ∨ d.pos ≤ i ∧ i ≤ d'.pos) : Keeps b size (t ++ src) d' := by
  have htake : (t ++ src).take (size-1) = t.take (size-1) ++ src.take (d.size-1) := by
    rw [List.take_append,hd.room]
    congr 2
    omega
  have hlen : (t.take (size-1)).length+(src.take (d.size-1)).length ≤ size-1 := by
    rw [← List.length_append,← htake]
    exact List.length_take_le ..
  have hold := hd.pos
  constructor
  · rw [htake,List.length_append,hpos,hold]
    omega
  · rw [hroom,hd.room,List.length_append]
    omega
  · rw [htake]
    apply HoldsAt.append
    · exact hd.holds.congr fun i _ hi => hmem i (by omega)
    · rwa [← hold]
  · intro i hi
    rcases hwrites i hi with hi | ⟨hlow,hhigh⟩
    · exact hd.inside i hi
    · omega

theorem strpcpy_long (h : d.size ≤ src.length) :
    strpcpy d src = { d.mempcpy (src.take (d.size-1)) with size := 0 }.terminate := by
  rw [strpcpy,if_pos h]
  by_cases hone : d.size > 1
  · rw [if_pos hone]
  · have hput : d.mempcpy (src.take (d.size-1)) = d := by
      have hnil : src.take (d.size-1) = [] := by rw [show d.size-1 = 0 by omega,List.take_zero]
      have hpos : d.pos+(List.length ([] : CString) : ℤ) = d.pos := Int.add_zero _
      have hmem : (d.put []).mem = d.mem := by
        funext i
        exact if_neg (by rw [List.length_nil]; omega)
      rw [hnil,Dest.mempcpy,hpos]
      simp only [Dest.put] at hmem ⊢
      rw [hmem]
      simp
    rw [if_neg hone,hput]

theorem strpcpy_eq (d : Dest) (src : CString) :
    strpcpy d src = { d.mempcpy (src.take (d.size-1)) with size := d.size-src.length }.terminate := by
  by_cases hlong : d.size ≤ src.length
  · rw [strpcpy_long hlong,Nat.sub_eq_zero_of_le hlong]
  · rw [strpcpy,if_neg hlong,List.take_of_length_le (by omega)]

theorem strpcpy_range (d : Dest) (src : CString) : d.pos ≤ (strpcpy d src).pos ∧
    ∀ i ∈ (strpcpy d src).writes, i ∈ d.writes ∨ d.pos ≤ i ∧ i ≤ (strpcpy d src).pos := by
  rw [strpcpy_eq d src]
  have hle : d.pos ≤ d.pos+(src.take (d.size-1)).length := by omega
  constructor
  · exact hle
  · intro i hi
    rcases mem_terminate_writes.mp hi with hi | rfl
    · rcases mem_put_writes.mp hi with hi | hi
      · exact Or.inl hi
      · exact Or.inr ⟨hi.1,Int.le_of_lt hi.2⟩
    · exact Or.inr ⟨hle,Int.le_refl _⟩

theorem strpcpyl_range (d : Dest) (src : CString) (srcs : List CString) : d.pos ≤ (strpcpyl d src srcs).pos ∧
    ∀ i ∈ (strpcpyl d src srcs).writes, i ∈ d.writes ∨ d.pos ≤ i ∧ i ≤ (strpcpyl d src srcs).pos := by
  induction srcs generalizing d src with
  | nil => exact strpcpy_range d src
  | cons next srcs ih =>
    obtain ⟨hle,hwrites⟩ := strpcpy_range d src
    obtain ⟨hrest,hall⟩ := ih (strpcpy d src) next
    constructor
    · exact Int.le_trans hle hrest
    · intro i hi
      rcases hall i hi with hi | ⟨hlow,hhigh⟩
      · rcases hwrites i hi with hi | ⟨hlow,hhigh⟩
        · exact Or.inl hi
        · exact Or.inr ⟨hlow,Int.le_trans hhigh hrest⟩
      · exact Or.inr ⟨Int.le_trans hle hlow,hhigh⟩

theorem Keeps.strpcpy (hd : Keeps b size t d) (hsize : 0 < size) (src : CString) :
    Keeps b size (t ++ src) (strpcpy d src) ∧ (strpcpy d src).mem (strpcpy d src).pos = 0 := by
  rw [strpcpy_eq d src]
  constructor
  · apply hd.append hsize
    · rfl
    · rfl
    · intro i hi
      rw [terminate_of_ne (by show i ≠ d.pos+_; omega)]
      exact put_of_lt hi
    · refine (holdsAt_put (d := d)).congr fun i _ hi => ?_
      exact terminate_of_ne (by show i ≠ d.pos+_; omega)
    · rw [← strpcpy_eq]
      exact (strpcpy_range d src).2
  · exact terminate_nul

theorem Keeps.strpcpyl (hd : Keeps b size t d) (hsize : 0 < size) (src : CString) (srcs : List CString) :
    Keeps b size (t ++ (src::srcs).flatten) (strpcpyl d src srcs) ∧
      (strpcpyl d src srcs).mem (strpcpyl d src srcs).pos = 0 := by
  induction srcs generalizing t d src with
  | nil =>
    rw [List.flatten_cons,List.flatten_nil,List.append_nil]
    exact hd.strpcpy hsize src
  | cons next srcs ih =>
    obtain ⟨hsrc,-⟩ := hd.strpcpy hsize src
    rw [List.flatten_cons,← List.append_assoc]
    exact ih hsrc next

theorem toInt32_le (n : ℕ) : toInt32 n ≤ n := by
  have h : ((2^32 : ℕ) : ℤ) = 4294967296 := rfl
  rw [toInt32,Int.bmod_def,h]
  split_ifs <;> omega

theorem toInt32_zero : toInt32 (0 : ℕ) = 0 := rfl

theorem lt_toInt32_range (z : ℤ) : toInt32 z < 2^31 := by
  have h : ((2^32 : ℕ) : ℤ) = 4294967296 := rfl
  rw [toInt32,Int.bmod_def,h]
  split_ifs <;> omega

theorem strpcpyf_room (h : (text.length : ℤ) < toInt32 d.size) :
    strpcpyf d text =
      { d.put (text ++ [0]) with pos := d.pos+text.length, size := d.size-text.length }.terminate := by
  have hlt := lt_toInt32_range d.size
  have hle := toInt32_le d.size
  have hint : text.length < 2^31 := by omega
  have hr : vsnprintf d text = (d.put (text ++ [0]),(text.length : ℤ)) := by
    rw [vsnprintf,if_pos (by omega),if_pos hint,List.take_of_length_le (by omega)]
  have hsub : ((d.size : ℤ)-text.length).toNat = d.size-text.length := by omega
  rw [strpcpyf,hr,if_pos h,hsub]

theorem strpcpyf_none (hroom : d.size = 0) (h : text.length < 2^31) : strpcpyf d text = d.terminate := by
  have hr : vsnprintf d text = (d,(text.length : ℤ)) := by
    rw [vsnprintf,if_neg (by omega),if_pos h]
  rw [strpcpyf,hr,hroom,toInt32_zero,if_neg (by omega)]
  rw [Nat.cast_zero,Int.add_zero,← hroom]

/-- A formatted copy that is cut off: the place goes behind the buffer, where a terminator is written. -/
theorem strpcpyf_cut (hroom : 0 < d.size) (hlong : toInt32 d.size ≤ (vsnprintf d text).2) :
    strpcpyf d text =
      { d.put (text.take (d.size-1) ++ [0]) with pos := d.pos+d.size, size := 0 }.terminate := by
  rw [strpcpyf,if_neg (Int.not_lt.mpr hlong),vsnprintf,if_pos hroom]

theorem Keeps.strpcpyf (hd : Keeps b size t d) (hsize : 0 < size) (h : FormatFits size t.length text) :
    Keeps b size (t ++ text) (strpcpyf d text) ∧ (strpcpyf d text).mem (strpcpyf d text).pos = 0 := by
  unfold FormatFits at h
  split_ifs at h with hroom
  · rw [← hd.room] at h
    have hle := toInt32_le d.size
    have htake : text.take (d.size-1) = text := List.take_of_length_le (by omega)
    rw [strpcpyf_room h]
    constructor
    · apply hd.append hsize
      · rw [htake]
        rfl
      · rfl
      · intro i hi
        rw [terminate_of_ne (by show i ≠ d.pos+_; omega)]
        exact put_of_lt hi
      · rw [htake]
        refine (holdsAt_put (d := d) (s := text ++ [0])).left.congr fun i _ hi => ?_
        exact terminate_of_ne (by show i ≠ d.pos+_; omega)
      · intro i hi
        rcases mem_terminate_writes.mp hi with hi | rfl
        · rcases mem_put_writes.mp hi with hi | hi
          · exact Or.inl hi
          · rw [List.length_append,List.length_singleton] at hi
            exact Or.inr ⟨hi.1,by show i ≤ d.pos+_; omega⟩
        · exact Or.inr ⟨by show d.pos ≤ d.pos+_; omega,Int.le_refl _⟩
    · exact terminate_nul
  · have hnone : d.size = 0 := by
      rw [hd.room]
      omega
    rw [strpcpyf_none hnone h]
    constructor
    · apply hd.append hsize
      · rw [hnone]
        exact (Int.add_zero _).symm
      · show d.size = _
        omega
      · exact fun i hi => terminate_of_ne (Int.ne_of_lt hi)
      · rw [hnone]
        exact fun k hk => absurd hk (Nat.not_lt_zero k)
      · intro i hi
        rcases mem_terminate_writes.mp hi with hi | rfl
        · exact Or.inl hi
        · exact Or.inr ⟨Int.le_refl _,Int.le_refl _⟩
    · exact terminate_nul

theorem Keeps.sound (hd : Keeps 0 size t d) (hsize : 0 < size) (hnul : d.mem d.pos = 0) : Sound size t d := by
  constructor
  · intro i hi
    have h := hd.inside i hi
    omega
  · have hlen := List.length_take_le (size-1) t
    have hpos := hd.pos
    refine ⟨t.take (size-1),List.take_prefix ..,by omega,hd.holds,?_,?_,?_⟩
    · rwa [← Int.zero_add ((t.take (size-1)).length : ℤ),← hpos]
    · rw [hd.room]
      constructor
      · intro hzero heq
        have heq := congrArg List.length heq
        rw [List.length_take] at heq
        omega
      · intro hne
        by_contra hroom
        exact hne (List.take_of_length_le (by omega))
    · intro hroom
      rw [hd.room] at hroom ⊢
      rw [List.length_take]
      omega

theorem strpcpyf_error (hlong : 2^31 ≤ text.length) (hint : -1 < toInt32 d.size) :
    (strpcpyf d text).size = d.size+1 := by
  have hr : (vsnprintf d text).2 = -1 := if_neg (Nat.not_lt.mpr hlong)
  rw [strpcpyf,hr,if_pos hint]
  show ((d.size : ℤ)- -1).toNat = _
  omega

theorem strpcpyf_cut_writes (hroom : 0 < d.size) (hlong : toInt32 d.size ≤ (vsnprintf d text).2) :
    d.pos+d.size ∈ (strpcpyf d text).writes := by
  rw [strpcpyf_cut hroom hlong]
  exact mem_terminate_writes.mpr (Or.inr rfl)

theorem not_sound_strpcpyf (hd : Keeps 0 size t d) (hsize : 0 < size) (h : ¬FormatFits size t.length text) :
    ¬Sound size (t ++ text) (strpcpyf d text) := by
  rintro ⟨hwrites,p,hpre,hlt,-,-,hzero,hroom⟩
  have hold := hd.room
  have hpos := hd.pos
  have hwhole : (strpcpyf d text).size ≠ 0 → (strpcpyf d text).size = size-(t ++ text).length := by
    intro hne
    have heq : p = t ++ text := by
      by_contra hp
      exact hne (hzero.mpr hp)
    rw [← heq]
    exact hroom hne
  rw [List.length_append] at hwhole
  unfold FormatFits at h
  split_ifs at h with hin
  · rw [← hd.room] at h
    by_cases hcut : toInt32 d.size ≤ (vsnprintf d text).2
    · have hout := hwrites _ (strpcpyf_cut_writes (by omega) hcut)
      rw [List.length_take] at hpos
      omega
    · have hlong : 2^31 ≤ text.length := by
        by_contra hshort
        have hr : (vsnprintf d text).2 = text.length := if_pos (Nat.lt_of_not_le hshort)
        omega
      have hr : (vsnprintf d text).2 = -1 := if_neg (Nat.not_lt.mpr hlong)
      have hback := strpcpyf_error hlong (show -1 < toInt32 d.size by omega)
      have hend := hwhole (by omega)
      omega
  · have hnone : d.size = 0 := by omega
    have hint : -1 < toInt32 d.size := by
      rw [hnone]
      decide
    have hback := strpcpyf_error (Nat.le_of_not_lt h) hint
    have hend := hwhole (by omega)
    omega

theorem call_format (d : Dest) (text : CString) : call d (.format text) = strpcpyf d text := rfl

theorem Keeps.call (hd : Keeps b size t d) (hsize : 0 < size) (c : Call)
    (h : ∀ text, c = .format text → FormatFits size t.length text) :
    Keeps b size (t ++ c.text) (call d c) ∧ (call d c).mem (call d c).pos = 0 := by
  cases c with
  | copy src => exact hd.strpcpy hsize src
  | format text =>
    have hfits := h text rfl
    rw [call_format]
    show Keeps b size (t ++ text) _ ∧ _
    exact hd.strpcpyf hsize hfits
  | list src srcs => exact hd.strpcpyl hsize src srcs

/-- `Fits` from some pieces on. -/
def FitsFrom (size n : ℕ) (cs : List Call) : Prop :=
  ∀ before text after, cs = before ++ .format text::after → FormatFits size (n+(texts before).length) text

theorem fitsFrom_cons {n : ℕ} {c : Call} {cs : List Call} :
    FitsFrom size n (c::cs) ↔
      (∀ text, c = .format text → FormatFits size n text) ∧ FitsFrom size (n+c.text.length) cs := by
  have hlen (before : List Call) : n+(texts (c::before)).length = n+c.text.length+(texts before).length := by
    rw [texts,List.flatMap_cons,List.length_append,Nat.add_assoc]
    rfl
  constructor
  · intro h
    constructor
    · intro text hc
      exact h [] text cs (by rw [hc,List.nil_append])
    · intro before text after heq
      rw [← hlen]
      exact h (c::before) text after (by rw [heq,List.cons_append])
  · rintro ⟨hfirst,hrest⟩ before text after heq
    rcases List.cons_eq_append_iff.mp heq with ⟨rfl,hcons⟩ | ⟨before,rfl,hcons⟩
    · exact hfirst text (List.cons.inj hcons).1.symm
    · rw [hlen]
      exact hrest before text after hcons

/-- From a state that is kept, every step is sound exactly where each formatted copy has room. -/
theorem calls_sound_iff (hd : Keeps 0 size t d) (hsize : 0 < size) (cs : List Call) :
    (∀ pre, pre <+: cs → pre ≠ [] → Sound size (t ++ texts pre) (pre.foldl call d)) ↔
      FitsFrom size t.length cs := by
  induction cs generalizing t d with
  | nil =>
    refine iff_of_true ?_ fun before text after heq => absurd heq (by simp)
    intro pre hpre hne
    exact absurd (List.prefix_nil.mp hpre) hne
  | cons c cs ih =>
    have hone : texts [c] = c.text := by rw [texts,List.flatMap_singleton]
    rw [fitsFrom_cons]
    constructor
    · intro h
      have hfits : ∀ text, c = .format text → FormatFits size t.length text := by
        intro text hc
        subst hc
        by_contra hnot
        have hsound := h [.format text] ⟨cs,rfl⟩ (List.cons_ne_nil _ _)
        rw [hone,List.foldl_cons,List.foldl_nil,call_format] at hsound
        exact not_sound_strpcpyf hd hsize hnot hsound
      obtain ⟨hnext,-⟩ := hd.call hsize c hfits
      constructor
      · exact hfits
      · rw [← List.length_append]
        apply (ih hnext).mp
        intro pre hpre _
        have hsound := h (c::pre) (List.cons_prefix_cons.mpr ⟨rfl,hpre⟩) (List.cons_ne_nil _ _)
        rw [List.append_assoc]
        exact hsound
    · rintro ⟨hfits,hrest⟩ pre hpre hne
      obtain ⟨hnext,hnul⟩ := hd.call hsize c hfits
      rw [← List.length_append] at hrest
      rcases List.prefix_cons_iff.mp hpre with rfl | ⟨pre,rfl,htail⟩
      · exact absurd rfl hne
      · by_cases hnil : pre = []
        · subst hnil
          rw [hone]
          exact hnext.sound hsize hnul
        · have hsound := (ih hnext).mpr hrest pre htail hnil
          rw [List.append_assoc] at hsound
          exact hsound

theorem keeps_start (mem : ℤ → UInt8) (size : ℕ) : Keeps b size [] ⟨mem,b,size,[]⟩ where
  pos := by rw [List.take_nil]; exact (Int.add_zero b).symm
  room := rfl
  holds := by rw [List.take_nil]; exact fun _ hk => absurd hk (Nat.not_lt_zero _)
  inside := fun _ hi => absurd hi List.not_mem_nil

/-- A chain builds its string behind every call exactly where the text of each `strpcpyf` is shorter than
the size that is left, as an `int`; behind a cut an `int` counts its text. -/
theorem chain_sound_iff {size : ℕ} (hsize : 1 ≤ size) (mem : ℤ → UInt8) (cs : List Call) :
    (∀ pre, pre <+: cs → pre ≠ [] → Sound size (texts pre) (chain mem size pre)) ↔ Fits size cs := by
  have h := calls_sound_iff (t := []) (keeps_start mem size) hsize cs
  have hfits : FitsFrom size 0 cs ↔ Fits size cs := by
    simp only [FitsFrom,Fits,Nat.zero_add]
  rw [← hfits]
  exact h

theorem chain_sound_iff_two :
    (∀ pre, pre <+: [.copy (str "s"),.format (str "1")] → pre ≠ [] → Sound 16 (texts pre) (chain (fun _ => 0) 16 pre)) ↔
      Fits 16 [.copy (str "s"),.format (str "1")] :=
  chain_sound_iff (by decide) (fun _ => 0) _

/-- `"s%d"` of 10 into a buffer of three bytes leaves the buffer. -/
theorem chain_cut_three : ¬Sound 3 (str "s10") (chain (fun _ => 0) 3 [.format (str "s10")]) := by
  rintro ⟨hwrites,-⟩
  have hout := hwrites 3 (by decide +kernel)
  omega

def Frame (mem : ℤ → UInt8) (d : Dest) : Prop := ∀ i, i ∉ d.writes → d.mem i = mem i

theorem Frame.put (hd : Frame mem d) (s : CString) : Frame mem (d.put s) := by
  intro i hi
  rw [mem_put_writes,not_or] at hi
  rw [← hd i hi.1]
  exact if_neg hi.2

theorem Frame.terminate (hd : Frame mem d) : Frame mem d.terminate := hd.put [0]

theorem Frame.strpcpy (hd : Frame mem d) (src : CString) : Frame mem (strpcpy d src) := by
  rw [strpcpy_eq]
  apply Frame.terminate
  exact hd.put _

theorem Frame.strpcpyl (hd : Frame mem d) (src : CString) (srcs : List CString) :
    Frame mem (strpcpyl d src srcs) := by
  induction srcs generalizing d src with
  | nil => exact hd.strpcpy src
  | cons next srcs ih => exact ih (hd.strpcpy src) next

theorem Frame.strpcpyf (hd : Frame mem d) (text : CString) : Frame mem (strpcpyf d text) := by
  have hr : Frame mem (vsnprintf d text).1 := by
    show Frame mem (if d.size > 0 then _ else d)
    split_ifs
    · exact hd.put _
    · exact hd
  rw [StringChain.strpcpyf]
  split_ifs
  · apply Frame.terminate
    exact hr
  · apply Frame.terminate
    exact hr

theorem Frame.formats (hd : Frame mem d) (texts : List CString) : Frame mem (texts.foldl StringChain.strpcpyf d) := by
  induction texts generalizing d with
  | nil => exact hd
  | cons text texts ih =>
    rw [List.foldl_cons]
    exact ih (hd.strpcpyf text)

theorem strpcpy_writes (w : List ℤ) (d : Dest) (src : CString) :
    strpcpy { d with writes := w ++ d.writes } src = { strpcpy d src with writes := w ++ (strpcpy d src).writes } := by
  rw [strpcpy_eq,strpcpy_eq]
  simp only [Dest.terminate,Dest.mempcpy,Dest.put,List.append_assoc]
  rfl

theorem strpcpyl_writes (w : List ℤ) (d : Dest) (src : CString) (srcs : List CString) :
    strpcpyl { d with writes := w ++ d.writes } src srcs =
      { strpcpyl d src srcs with writes := w ++ (strpcpyl d src srcs).writes } := by
  induction srcs generalizing d src with
  | nil => exact strpcpy_writes w d src
  | cons next srcs ih =>
    have hcons : ∀ d, strpcpyl d src (next::srcs) = strpcpyl (strpcpy d src) next srcs := fun _ => rfl
    rw [hcons,hcons,strpcpy_writes,ih]

theorem strpcpyl_pos_mem (d : Dest) (src : CString) (srcs : List CString) :
    (strpcpyl d src srcs).pos ∈ (strpcpyl d src srcs).writes := by
  induction srcs generalizing d src with
  | nil =>
    show (strpcpy d src).pos ∈ (strpcpy d src).writes
    rw [strpcpy_eq]
    exact mem_terminate_writes.mpr (Or.inr rfl)
  | cons next srcs ih => exact ih (strpcpy d src) next

theorem toInt32_small {n : ℕ} (h : n < 2^31) : toInt32 n = n := by
  have h32 : ((2^32 : ℕ) : ℤ) = 4294967296 := rfl
  rw [toInt32,Int.bmod_def,h32]
  split_ifs <;> omega

theorem Keeps.formats (hd : Keeps b size t d) (hsmall : size < 2^31) (texts : List CString)
    (hfit : (t ++ texts.flatten).length < size) :
    Keeps b size (t ++ texts.flatten) (texts.foldl StringChain.strpcpyf d) ∧
      (d.mem d.pos = 0 ∨ texts ≠ [] →
        (texts.foldl StringChain.strpcpyf d).mem (texts.foldl StringChain.strpcpyf d).pos = 0) := by
  induction texts generalizing t d with
  | nil =>
    rw [List.flatten_nil,List.append_nil]
    exact ⟨hd,fun h => h.resolve_right fun hne => hne rfl⟩
  | cons text texts ih =>
    rw [List.flatten_cons,← List.append_assoc] at hfit ⊢
    have hfits : FormatFits size t.length text := by
      simp only [List.length_append] at hfit
      rw [FormatFits,if_pos (by omega),toInt32_small (by omega)]
      omega
    obtain ⟨hnext,hnul⟩ := hd.strpcpyf (by omega) hfits
    obtain ⟨hall,hend⟩ := ih hnext hfit
    rw [List.foldl_cons]
    exact ⟨hall,fun _ => hend (Or.inl hnul)⟩

/-- Behind the cut only the terminator behind the buffer is written again. -/
theorem Passed.strpcpyf (hd : Passed b size t d) (h : text.length < 2^31) :
    Passed b size (t ++ text) (StringChain.strpcpyf d text) := by
  have hreal := hd.real
  have hcut := hd.cut
  have hpos := hd.pos
  rw [strpcpyf_none hd.room h]
  constructor
  · exact hd.pos
  · exact hd.room
  · exact hd.real
  · rw [List.length_append]
    omega
  · rw [List.take_append_of_le_length (by omega)]
    refine hd.holds.congr fun i _ hi => terminate_of_ne ?_
    rw [List.length_take] at hi
    omega
  · rw [terminate_of_ne (by omega),hd.nul]
  · rw [← hd.pos]
    exact terminate_nul
  · intro i hi
    rcases mem_terminate_writes.mp hi with hi | rfl
    · exact hd.inside i hi
    · omega

theorem Passed.formats (hd : Passed b size t d) (texts : List CString) (h : ∀ text ∈ texts, text.length < 2^31) :
    Passed b size (t ++ texts.flatten) (texts.foldl StringChain.strpcpyf d) := by
  induction texts generalizing t d with
  | nil =>
    rw [List.flatten_nil,List.append_nil]
    exact hd
  | cons text texts ih =>
    have htext : text.length < 2^31 := h text List.mem_cons_self
    rw [List.flatten_cons,← List.append_assoc,List.foldl_cons]
    exact ih (hd.strpcpyf htext) fun text' h' => h text' (List.mem_cons_of_mem _ h')

theorem Keeps.cut (hd : Keeps b size t d) (hsmall : size < 2^31) (hroom : t.length < size)
    (h : text.length < 2^31) (hlong : size ≤ (t ++ text).length) : Passed b size (t ++ text) (StringChain.strpcpyf d text) := by
  have hsize := hd.room
  have hpos := hd.pos
  rw [List.take_of_length_le (by omega)] at hpos
  rw [List.length_append] at hlong
  have hr : (vsnprintf d text).2 = text.length := if_pos h
  rw [strpcpyf_cut (by omega) (by rw [toInt32_small (by omega),hr]; omega)]
  have hlen : (text.take (d.size-1)).length = d.size-1 := by
    rw [List.length_take]
    omega
  have hput (s : CString) (hs : s.length = d.size) : ∀ i, i ≠ d.pos+d.size →
      ({ d.put s with pos := d.pos+d.size, size := 0 } : Dest).terminate.mem i = (d.put s).mem i :=
    fun i hi => terminate_of_ne hi
  have hput := hput (text.take (d.size-1) ++ [0]) (by rw [List.length_append,hlen,List.length_singleton]; omega)
  constructor
  · show d.pos+d.size = b+size
    omega
  · rfl
  · exact Nat.lt_of_le_of_lt (Nat.zero_le _) hroom
  · rw [List.length_append]
    exact hlong
  · have htake : (t ++ text).take (size-1) = t ++ text.take (d.size-1) := by
      rw [List.take_append,List.take_of_length_le (by omega),hsize]
      congr 2
      omega
    have hold := hd.holds
    rw [List.take_of_length_le (by omega)] at hold
    rw [htake]
    apply HoldsAt.append
    · refine hold.congr fun i _ hi => ?_
      rw [hput i (by omega)]
      exact put_of_lt (by omega)
    · rw [← hpos]
      refine (holdsAt_put (d := d) (s := text.take (d.size-1) ++ [0])).left.congr fun i _ hi => ?_
      rw [hlen] at hi
      exact hput i (by omega)
  · have hlast : b+(size-1 : ℕ) = d.pos+(d.size-1 : ℕ) := by omega
    have h0 := put_at (d := d) (s := text.take (d.size-1) ++ [0]) (k := d.size-1)
      (by rw [List.length_append,hlen]; exact Nat.lt_succ_self _)
    rw [hlast,hput _ (by omega),h0]
    have h1 := Memory.charAt_append_right (text.take (d.size-1)) [0] 0
    rw [hlen] at h1
    exact h1
  · have hend : b+size = d.pos+d.size := by omega
    rw [hend]
    exact terminate_nul
  · intro i hi
    rcases mem_terminate_writes.mp hi with hi | rfl
    · rcases mem_put_writes.mp hi with hi | hi
      · have hin := hd.inside i hi
        omega
      · rw [List.length_append,hlen,List.length_singleton] at hi
        omega
    · show b ≤ d.pos+d.size ∧ d.pos+d.size ≤ b+size
      omega

theorem Keeps.formats_cut (hd : Keeps b size t d) (hsmall : size < 2^31) (hroom : t.length < size)
    (texts : List CString) (h : ∀ text ∈ texts, text.length < 2^31) (hlong : size ≤ (t ++ texts.flatten).length) :
    Passed b size (t ++ texts.flatten) (texts.foldl StringChain.strpcpyf d) := by
  induction texts generalizing t d with
  | nil =>
    rw [List.flatten_nil,List.append_nil] at hlong
    omega
  | cons text texts ih =>
    have htext := h text List.mem_cons_self
    have hrest : ∀ text' ∈ texts, text'.length < 2^31 := fun text' h' => h text' (List.mem_cons_of_mem _ h')
    rw [List.flatten_cons,← List.append_assoc] at hlong ⊢
    rw [List.foldl_cons]
    by_cases hfirst : (t ++ text).length < size
    · have hfits : FormatFits size t.length text := by
        rw [List.length_append] at hfirst
        rw [FormatFits,if_pos hroom,toInt32_small (by omega)]
        omega
      exact ih (hd.strpcpyf (by omega) hfits).1 hfirst hrest hlong
    · exact (hd.cut hsmall hroom htext (Nat.le_of_not_lt hfirst)).formats texts hrest

end StringChain
end Udev
