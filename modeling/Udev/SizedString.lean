import Udev.Memory

/-! Strings with their length and the size of their allocation. A string grows when it is too small for what a
call puts into it; fresh memory may hold anything, and the places that a call writes are recorded. -/
namespace Udev
namespace SizedString

open CString Memory

/-- `sizeof(str_t)` -/
def headerSize : ℕ := 16

/-- `PTRDIFF_MAX`: no object has more bytes, and an allocation of more fails. -/
def ptrdiffMax : ℕ := 2^63-1

/-- `str_t`, and the bytes that its block has behind the header. -/
structure Str where
  len : ℕ
  size : ℕ
  val : Memory
  room : ℕ

/-- What stands in fresh memory where a `str_t` is to be. -/
structure Fresh where
  len : ℕ
  len_lt : len < 2^64
  size : ℕ
  val : Memory

/-- `sizeof(str_t) + size`, which is a `size_t`. -/
def allocation (size : ℕ) : ℕ := (headerSize+size)%2^64

/-- `calloc(1, n)` with the `size` set; `memory` tells whether there is any. -/
def strNew (size : ℕ) (memory : Bool) : Option Str :=
  if memory ∧ allocation size ≤ ptrdiffMax then
    some { len := 0, size, val := fun _ => 0, room := allocation size-headerSize }
  else none

/-- The memory that a request of `n` bytes is given, if any. -/
def granted (n : ℕ) (fresh : Option Fresh) : Option Fresh := if n ≤ ptrdiffMax then fresh else none

/-- A block of `n` bytes that keeps the bytes of the old one; behind them it is as fresh as a new block. -/
def realloc (str : Option Str) (n : ℕ) (fresh : Option Fresh) : Option Str :=
  (granted n fresh).map fun f =>
    str.elim { len := f.len, size := f.size, val := f.val, room := n-headerSize } fun s =>
      { s with val := fun i => if i < s.room then s.val i else f.val i, room := n-headerSize }

/-- `none` is the `-1`, and the string is as it was. -/
def strResize (dst : Option Str) (size : ℕ) (fresh : Option Fresh) : Option Str :=
  if dst.any (·.size ≥ size) then dst
  else (realloc dst (allocation size) fresh).map fun s => { s with size }

/-- The loop of `str_copy` and the terminator: the writes, and the size that is left. -/
def strCopyLoop : CString → ℕ → Cursor → Cursor × ℕ
  | [], size, dst => (dst.put 0,size)
  | c::src, size, dst => if c ≠ 0 ∧ size > 1 then strCopyLoop src (size-1) (dst.put c) else (dst.put 0,size)

def strCopy (m : Memory) (dst : ℕ) (src : CString) (size : ℕ) : Cursor × ℕ :=
  let r := strCopyLoop src size ⟨m,dst,[]⟩
  (r.1,size-r.2)

/-- The string and the places of `val` that were written; `none` is the `-1`. -/
def strSet (dst : Option Str) (str : CString) (len : ℕ) (fresh : Option Fresh) : Option (Str × List ℕ) :=
  (strResize dst ((len+1)%2^64) fresh).map fun s =>
    let r := strCopy s.val 0 str s.size
    ({ s with len := r.2, val := r.1.mem },r.1.writes)

def strAppend (dst : Option Str) (str : CString) (len : ℕ) (fresh : Option Fresh) : Option (Str × List ℕ) :=
  let len := dst.elim len fun s => (len+s.len)%2^64
  (strResize dst ((len+1)%2^64) fresh).map fun s =>
    let r := strCopy s.val s.len str s.size
    ({ s with len := (s.len+r.2)%2^64, val := r.1.mem },r.1.writes)

/-- A call with a string that lies outside of the buffer, its length and the memory that there is for it. -/
structure Call where
  append : Bool
  str : CString
  nul : 0 ∉ str
  object : str.length < ptrdiffMax
  fresh : Option Fresh

def Call.run (c : Call) (dst : Option Str) : Option (Str × List ℕ) :=
  if c.append then strAppend dst c.str c.str.length c.fresh else strSet dst c.str c.str.length c.fresh

/-- What a call is for, on the text before it. -/
def Call.text (c : Call) (t : CString) : CString := if c.append then t ++ c.str else c.str

inductive Start where
  | null
  | new (size : ℕ) (h : size < 2^64) (memory : Bool)

def Start.string : Start → Option Str
  | null => none
  | new size _ memory => strNew size memory

/-- A call that succeeded: the concatenation of the strings since the last `str_set`, the string and the writes. -/
structure Outcome where
  text : CString
  str : Str
  writes : List ℕ

/-- The calls that succeed, one after the other. -/
def outcomes : Option Str → CString → List Call → List Outcome
  | _, _, [] => []
  | dst, t, c::calls =>
    (c.run dst).elim (outcomes dst t calls) fun r => ⟨c.text t,r.1,r.2⟩::outcomes (some r.1) (c.text t) calls

example : (outcomes none [] [⟨true,str "test string",by decide,by decide,some ⟨0,by decide,0,fun _ => 7⟩⟩,
    ⟨true,str "   ",by decide,by decide,some ⟨5,by decide,9,fun _ => 7⟩⟩]).map (fun o => (o.str.len,o.str.size)) =
    [(11,12),(14,15)] := by decide +kernel

/-- `val` is the terminated text, `len` is its length and below `size`, and every write is in `val[0..size-1]` and
in the block. -/
structure Outcome.Intact (o : Outcome) : Prop where
  holds : o.str.val.Holds o.text
  terminated : o.str.val o.text.length = 0
  len : o.str.len = o.text.length
  len_lt : o.str.len < o.str.size
  writes : ∀ i ∈ o.writes, i < o.str.size ∧ i < o.str.room

/-- The first call that gets memory is a `str_set`, or the memory has a zero where `len` is. -/
def FreshLen : List Call → Prop
  | [] => True
  | c::calls => (granted (allocation (c.str.length+1)) c.fresh).elim (FreshLen calls) fun f => c.append = false ∨ f.len = 0

/-- A string from `str_new` was given a size that leaves room for the header in a `size_t`. -/
def Start.Clean (start : Start) (calls : List Call) : Prop :=
  start.string.elim (FreshLen calls) fun s => headerSize+s.size < 2^64 ∨ calls = []

section Copy

variable {s t : CString} {m : Memory} {dst size : ℕ}

theorem strCopyLoop_eq (h0 : 0 ∉ s) (size : ℕ) (w : Cursor) :
    strCopyLoop s size w = ((s.take (size-1) ++ [0]).foldl Cursor.put w,size-(s.take (size-1)).length) := by
  induction s generalizing size w with
  | nil => rw [strCopyLoop,List.take_nil]; rfl
  | cons c s ih =>
    rw [List.mem_cons,not_or] at h0
    rw [strCopyLoop]
    by_cases hsize : size > 1
    · obtain ⟨n,rfl⟩ := Nat.exists_eq_add_of_le' hsize
      rw [if_pos ⟨Ne.symm h0.1,hsize⟩,ih h0.2]
      simp
    · have hzero : size-1 = 0 := by omega
      rw [if_neg fun h => hsize h.2,hzero]
      rfl

theorem strCopy_eq (h0 : 0 ∉ s) (m : Memory) (dst size : ℕ) :
    strCopy m dst s size = (⟨m.store dst (s.take (size-1)),dst+(s.take (size-1)).length+1,
      List.range' dst ((s.take (size-1)).length+1)⟩,(s.take (size-1)).length) := by
  have hle : (s.take (size-1)).length ≤ size := (List.length_take_le _ _).trans (Nat.sub_le _ _)
  rw [strCopy,strCopyLoop_eq h0,Cursor.foldl_put,store_eq_write,List.length_append,List.length_singleton]
  dsimp only
  rw [List.nil_append,Nat.sub_sub_self hle]
  rfl

theorem strCopy_fits (h0 : 0 ∉ s) (m : Memory) (dst : ℕ) (hsize : s.length < size) :
    strCopy m dst s size = (⟨m.store dst s,dst+s.length+1,List.range' dst (s.length+1)⟩,s.length) := by
  rw [strCopy_eq h0,List.take_of_length_le (Nat.le_sub_one_of_lt hsize)]

end Copy

section Resize

variable {dst : Option Str} {s s' : Str} {size : ℕ} {fresh : Option Fresh}

/-- The block has the bytes that the size says, and is an object. -/
structure Str.Valid (s : Str) : Prop where
  allocated : s.size ≤ s.room
  object : headerSize+s.room ≤ ptrdiffMax

theorem allocation_eq (h : headerSize+size < 2^64) : allocation size = headerSize+size := Nat.mod_eq_of_lt h

theorem allocation_room (h : headerSize+size < 2^64) : allocation size-headerSize = size := by
  rw [allocation_eq h,Nat.add_sub_cancel_left]

def Fresh.grown (f : Fresh) (dst : Option Str) (size : ℕ) : Str where
  len := dst.elim f.len Str.len
  size := size
  val := dst.elim f.val fun s i => if i < s.room then s.val i else f.val i
  room := size

theorem strResize_enough (h : size ≤ s.size) : strResize (some s) size fresh = some s :=
  if_pos (decide_eq_true h)

theorem strResize_grown (hsize : headerSize+size < 2^64) (hless : ∀ s ∈ dst, s.size < size) :
    strResize dst size fresh = (granted (allocation size) fresh).map fun f => f.grown dst size := by
  have hany : ¬dst.any (·.size ≥ size) = true := by
    rw [Option.any_eq_true]
    rintro ⟨s,hs,hge⟩
    exact Nat.not_le_of_lt (hless s hs) (of_decide_eq_true hge)
  rw [strResize,if_neg hany,realloc,allocation_room hsize,Option.map_map]
  cases dst with
  | none => rfl
  | some s => rfl

theorem resize_cases (hsize : headerSize+size < 2^64) (h : strResize dst size fresh = some s') :
    dst = some s' ∧ size ≤ s'.size ∨
      ∃ f, granted (allocation size) fresh = some f ∧ s' = f.grown dst size := by
  by_cases hless : ∀ s ∈ dst, s.size < size
  · rw [strResize_grown hsize hless] at h
    obtain ⟨f,hf,hs'⟩ := Option.map_eq_some_iff.mp h
    exact Or.inr ⟨f,hf,hs'.symm⟩
  · push Not at hless
    obtain ⟨s,rfl,hge⟩ := hless
    rw [strResize_enough hge] at h
    obtain rfl := Option.some.inj h
    exact Or.inl ⟨rfl,hge⟩

theorem valid_grown {f : Fresh} (hsize : headerSize+size < 2^64) (hf : granted (allocation size) fresh = some f) :
    (f.grown dst size).Valid := by
  rw [granted,allocation_eq hsize] at hf
  split_ifs at hf with hmax
  exact ⟨le_rfl,hmax⟩

/-- A string that was resized is large enough, and its length and its bytes are kept. -/
theorem Str.Valid.resize (hs : s.Valid) (hsize : headerSize+size < 2^64) (h : strResize (some s) size fresh = some s') :
    s'.Valid ∧ size ≤ s'.size ∧ s'.len = s.len ∧ ∀ i < s.room, s'.val i = s.val i := by
  rcases resize_cases hsize h with ⟨heq,hge⟩ | ⟨f,hf,rfl⟩
  · obtain rfl := Option.some.inj heq
    exact ⟨hs,hge,rfl,fun _ _ => rfl⟩
  · exact ⟨valid_grown hsize hf,le_rfl,rfl,fun i hi => if_pos hi⟩

end Resize

section Calls

variable {s : Str} {t str : CString} {fresh : Option Fresh} {f : Fresh} {r : Str × List ℕ} {c : Call}

/-- The string has the text, without its terminator, and the block that it says. -/
structure Str.Has (s : Str) (t : CString) : Prop where
  valid : s.Valid
  holds : s.val.Holds t
  len : s.len = t.length
  fits : t.length ≤ s.size

theorem Outcome.Intact.has {o : Outcome} (h : o.Intact) (hvalid : o.str.Valid) : o.str.Has o.text :=
  ⟨hvalid,h.holds,h.len,by rw [← h.len]; exact h.len_lt.le⟩

theorem Str.Valid.store (hs : s.Valid) (hholds : s.val.Holds t) (hroom : t.length+str.length < s.size) :
    Outcome.Intact ⟨t ++ str,{ s with len := t.length+str.length, val := s.val.store t.length str },
      List.range' t.length (str.length+1)⟩ where
  holds := hholds.store str
  terminated := by
    rw [List.length_append]
    exact store_end s.val t.length str
  len := (List.length_append).symm
  len_lt := hroom
  writes i hi := by
    have halloc := hs.allocated
    obtain ⟨-,hlt⟩ := List.mem_range'_1.mp hi
    dsimp only
    omega

theorem Str.Valid.store_first (hs : s.Valid) (hroom : str.length < s.size) :
    Outcome.Intact ⟨str,{ s with len := str.length, val := s.val.store 0 str },List.range' 0 (str.length+1)⟩ := by
  have hlen : ([] : CString).length+str.length < s.size := by rwa [List.length_nil,Nat.zero_add]
  have hstore := hs.store (holds_nil s.val) hlen
  rwa [List.nil_append,List.length_nil,Nat.zero_add] at hstore

/-- No `size_t` overflows: the text is in one block of memory and the string in another. -/
theorem request_lt (ht : headerSize+t.length ≤ ptrdiffMax) (hobject : str.length < ptrdiffMax) :
    headerSize+(t.length+str.length+1) < 2^64 := by
  unfold headerSize ptrdiffMax at *
  omega

theorem request_first_lt (hobject : str.length < ptrdiffMax) : headerSize+(str.length+1) < 2^64 := by
  have hlt := request_lt (t := []) (by decide) hobject
  rwa [List.length_nil,Nat.zero_add] at hlt

theorem Call.length_mod (c : Call) : c.str.length%2^64 = c.str.length ∧ (c.str.length+1)%2^64 = c.str.length+1 := by
  have hlt := request_first_lt c.object
  exact ⟨Nat.mod_eq_of_lt (by omega),Nat.mod_eq_of_lt (by omega)⟩

theorem strSet_intact (hs : s.Valid) (h0 : 0 ∉ str) (hobject : str.length < ptrdiffMax)
    (h : strSet (some s) str str.length fresh = some r) : Outcome.Intact ⟨str,r.1,r.2⟩ ∧ r.1.Valid := by
  have hsize := request_first_lt hobject
  rw [strSet,Nat.mod_eq_of_lt (by omega)] at h
  obtain ⟨s',hs',rfl⟩ := Option.map_eq_some_iff.mp h
  obtain ⟨hvalid,hge,-⟩ := hs.resize hsize hs'
  dsimp only
  rw [strCopy_fits h0 _ _ hge]
  exact ⟨hvalid.store_first hge,hvalid.allocated,hvalid.object⟩

theorem strAppend_intact (hs : s.Has t) (h0 : 0 ∉ str) (hobject : str.length < ptrdiffMax)
    (h : strAppend (some s) str str.length fresh = some r) : Outcome.Intact ⟨t ++ str,r.1,r.2⟩ ∧ r.1.Valid := by
  have hroom : t.length ≤ s.room := hs.fits.trans hs.valid.allocated
  have hsize := request_lt ((Nat.add_le_add_left hroom _).trans hs.valid.object) hobject
  have hsum : (str.length+s.len)%2^64 = t.length+str.length := by
    rw [hs.len,Nat.add_comm,Nat.mod_eq_of_lt (by omega)]
  rw [strAppend,Option.elim_some,hsum,Nat.mod_eq_of_lt (by omega : t.length+str.length+1 < 2^64)] at h
  obtain ⟨s',hs',rfl⟩ := Option.map_eq_some_iff.mp h
  obtain ⟨hvalid,hge,hlen,hkept⟩ := hs.valid.resize hsize hs'
  have hholds : s'.val.Holds t := fun i hi => (hkept i (hi.trans_le hroom)).trans (hs.holds i hi)
  dsimp only
  rw [strCopy_fits h0 _ _ (by omega),hlen,hs.len,Nat.mod_eq_of_lt (by omega)]
  exact ⟨hvalid.store hholds hge,hvalid.allocated,hvalid.object⟩

theorem Str.Has.run (h : s.Has t) (hrun : c.run (some s) = some r) :
    Outcome.Intact ⟨c.text t,r.1,r.2⟩ ∧ r.1.Valid := by
  rw [Call.run] at hrun
  rw [Call.text]
  by_cases happend : c.append = true
  · rw [if_pos happend] at hrun ⊢
    exact strAppend_intact h c.nul c.object hrun
  · rw [if_neg happend] at hrun ⊢
    exact strSet_intact h.valid c.nul c.object hrun

/-- A call on a null pointer gets a block of its own; an `str_append` goes to where the fresh `len` points. -/
theorem run_null (c : Call) : c.run none = (granted (allocation (c.str.length+1)) c.fresh).map fun f =>
    let pos := if c.append then f.len else 0
    ({ f.grown none (c.str.length+1) with len := (pos+c.str.length)%2^64, val := f.val.store pos c.str },
      List.range' pos (c.str.length+1)) := by
  have hsize := request_first_lt c.object
  obtain ⟨hlen,hrequest⟩ := c.length_mod
  have hless : ∀ s ∈ (none : Option Str), s.size < c.str.length+1 := fun _ hs => absurd hs (Option.not_mem_none _)
  have hcopy : ∀ m dst, strCopy m dst c.str (c.str.length+1) = _ := fun m dst => strCopy_fits c.nul m dst (Nat.lt_succ_self _)
  rw [Call.run,strAppend,strSet,Option.elim_none]
  dsimp only
  rw [hrequest,strResize_grown hsize hless,Option.map_map,Option.map_map]
  split_ifs with happend
  · refine congrFun (congrArg _ (funext fun f => ?_)) _
    simp only [Function.comp_apply,Fresh.grown,Option.elim_none,hcopy]
  · refine congrFun (congrArg _ (funext fun f => ?_)) _
    simp only [Function.comp_apply,Fresh.grown,Option.elim_none,hcopy,Nat.zero_add,hlen]

/-- The first call that gets memory is right if and only if it does not read the fresh `len`, or reads a zero. -/
theorem run_first (hf : granted (allocation (c.str.length+1)) c.fresh = some f) :
    ∃ r, c.run none = some r ∧ r.1.Valid ∧ (Outcome.Intact ⟨c.text [],r.1,r.2⟩ ↔ c.append = false ∨ f.len = 0) := by
  have hvalid : (f.grown none (c.str.length+1)).Valid := valid_grown (request_first_lt c.object) hf
  have htext : c.text [] = c.str := by
    rw [Call.text]
    exact ite_self _
  have hpos : (if c.append then f.len else 0) = 0 ↔ c.append = false ∨ f.len = 0 := by
    cases c.append with
    | false => simp
    | true => simp
  rw [run_null,hf,Option.map_some,htext,← hpos]
  refine ⟨_,rfl,⟨hvalid.allocated,hvalid.object⟩,fun h => ?_,fun h => ?_⟩
  · have hmod : ((if c.append then f.len else 0)+c.str.length)%2^64 = c.str.length := h.len
    have hlt := f.len_lt
    have hsize := request_first_lt c.object
    split_ifs at hmod ⊢
    · omega
    · rfl
  · dsimp only
    rw [h,Nat.zero_add,c.length_mod.1]
    exact hvalid.store_first (Nat.lt_succ_self _)

end Calls

section Runs

variable {s : Str} {t : CString} {size : ℕ} {c : Call} {calls : List Call}

theorem outcomes_intact (h : s.Has t) (calls : List Call) : ∀ o ∈ outcomes (some s) t calls, o.Intact := by
  induction calls generalizing s t with
  | nil => exact fun o ho => absurd ho List.not_mem_nil
  | cons c calls ih =>
    rw [outcomes]
    cases hrun : c.run (some s) with
    | none => exact ih h
    | some r =>
      obtain ⟨hintact,hvalid⟩ := h.run hrun
      rw [Option.elim_some,List.forall_mem_cons]
      exact ⟨hintact,ih (hintact.has hvalid)⟩

theorem outcomes_null (calls : List Call) : (∀ o ∈ outcomes none [] calls, o.Intact) ↔ FreshLen calls := by
  induction calls with
  | nil => exact iff_of_true (fun o ho => absurd ho List.not_mem_nil) trivial
  | cons c calls ih =>
    rw [outcomes,FreshLen]
    cases hf : granted (allocation (c.str.length+1)) c.fresh with
    | none =>
      rw [run_null,hf]
      exact ih
    | some f =>
      obtain ⟨r,hrun,hvalid,hfirst⟩ := run_first hf
      rw [hrun,Option.elim_some,Option.elim_some,List.forall_mem_cons,← hfirst]
      exact and_iff_left_of_imp fun hintact => outcomes_intact (hintact.has hvalid) calls

theorem run_empty (hlen : s.len = 0) (hsize : c.str.length < s.size) : c.run (some s) =
    some ({ s with len := c.str.length, val := s.val.store 0 c.str },List.range' 0 (c.str.length+1)) := by
  obtain ⟨hmod,hrequest⟩ := c.length_mod
  have hsum : (c.str.length+s.len)%2^64 = c.str.length := by rwa [hlen,Nat.add_zero]
  rw [Call.run,strAppend,strSet,Option.elim_some]
  dsimp only
  rw [hsum,hrequest,strResize_enough hsize,Option.map_some,Option.map_some,
    hlen,strCopy_fits c.nul _ _ hsize,Nat.zero_add,hmod]
  exact ite_self _

/-- Where the sum for `calloc` overflows, the header alone is larger than the block. -/
theorem outcomes_overflow (hlen : s.len = 0) (hsize : 2^64 ≤ headerSize+s.size) (hroom : s.room = 0) :
    (∀ o ∈ outcomes (some s) [] calls, o.Intact) ↔ calls = [] := by
  cases calls with
  | nil => exact iff_of_true (fun o ho => absurd ho List.not_mem_nil) rfl
  | cons c calls =>
    have hrequest := request_first_lt c.object
    refine iff_of_false (fun h => ?_) (List.cons_ne_nil _ _)
    rw [outcomes,run_empty hlen (by omega),Option.elim_some,List.forall_mem_cons] at h
    obtain ⟨-,hlt⟩ := h.1.writes 0 (List.mem_range'_1.mpr ⟨le_rfl,by omega⟩)
    exact Nat.not_lt_zero 0 (hroom ▸ hlt)

theorem strNew_has {memory : Bool} (hsize : headerSize+size < 2^64) (h : strNew size memory = some s) : s.Has [] := by
  rw [strNew] at h
  split_ifs at h with hmemory
  obtain rfl := Option.some.inj h
  have hmax := hmemory.2
  rw [allocation_eq hsize] at hmax
  have hroom := allocation_room hsize
  exact ⟨⟨hroom.ge,by rwa [hroom]⟩,holds_nil _,rfl,Nat.zero_le _⟩

theorem strNew_fields {memory : Bool} (h : strNew size memory = some s) :
    s.len = 0 ∧ s.size = size ∧ s.room = allocation size-headerSize := by
  rw [strNew] at h
  split_ifs at h
  obtain rfl := Option.some.inj h
  exact ⟨rfl,rfl,rfl⟩

theorem allocation_overflow (hlt : size < 2^64) (h : 2^64 ≤ headerSize+size) : allocation size-headerSize = 0 := by
  unfold allocation headerSize at *
  omega

/-- Every call that succeeds leaves the concatenation of the strings since the last `str_set`, with its length below
the size, and writes inside of `val` only, if and only if no fresh `len` is added to and no size overflows. -/
theorem str_runs (start : Start) (calls : List Call) :
    (∀ o ∈ outcomes start.string [] calls, o.Intact) ↔ start.Clean calls := by
  rw [Start.Clean]
  cases hstart : start.string with
  | none => exact outcomes_null calls
  | some s =>
    rw [Option.elim_some]
    cases start with
    | null => cases hstart
    | new size hlt memory =>
      obtain ⟨hlen,rfl,hroom⟩ := strNew_fields hstart
      rcases Nat.lt_or_ge (headerSize+s.size) (2^64) with hsize | hsize
      · exact iff_of_true (outcomes_intact (strNew_has hsize hstart) calls) (Or.inl hsize)
      · rw [outcomes_overflow hlen hsize (hroom.trans (allocation_overflow hlt hsize))]
        exact (or_iff_right (Nat.not_lt_of_le hsize)).symm

/-- A string is appended to a null pointer, and the block was in use before. -/
theorem str_runs_append : ¬∀ o ∈ outcomes Start.null.string []
    [⟨true,str "test string",by decide,by decide,some ⟨3,by decide,0,fun _ => 0⟩⟩], o.Intact := by
  intro h
  have hlen := (List.forall_mem_cons.mp h).1.len
  exact absurd hlen (by decide)

end Runs

end SizedString
end Udev
