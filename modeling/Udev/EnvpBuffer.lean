import Udev.FormatBuffer
import Udev.Properties

/-! `update_envp_monitor_buf` on the memory of its monitor buffer and of its array of pointers:
where it writes, and what is in them when it succeeds. -/
namespace Udev
namespace Device

open CString Text Memory Rules

/-- The monitor buffer from its begin on, the array of pointers into it, with `none` for `NULL`,
the number of entries, and the indices of the array that were written. -/
structure EnvpRun where
  dest : Dest
  envp : ℕ → Option ℕ
  i : ℕ
  stores : List ℕ

namespace EnvpRun

/-- `envp[i++] = s` -/
def addEntry (r : EnvpRun) : EnvpRun where
  dest := r.dest
  envp := Function.update r.envp r.i (some r.dest.pos)
  i := r.i+1
  stores := r.stores ++ [r.i]

/-- `envp[i] = NULL` -/
def terminate (r : EnvpRun) : EnvpRun :=
  { r with envp := Function.update r.envp r.i none, stores := r.stores ++ [r.i] }

/-- `strpcpyl` of the key, "=" and the value. -/
def copyProperty (r : EnvpRun) (e : ListEntry) : EnvpRun :=
  { r with dest := ([e.name,str "="] ++ e.value.toList).foldl Dest.strpcpy r.dest }

/-- Past the terminator that `strpcpyl` guarantees. -/
def advance (r : EnvpRun) : EnvpRun :=
  { r with dest := { r.dest with pos := r.dest.pos+1, room := r.dest.room-1 } }

end EnvpRun

/-- The loop of `update_envp_monitor_buf` and the `NULL` behind the entries. -/
def envpBufLoop : UdevList → EnvpRun → EnvpRun × ℤ
  | [], r => (r.terminate,0)
  | e::es, r =>
    -- skip private variables
    if charAt e.name 0 = chr '.' then envpBufLoop es r
    else
      let r := r.addEntry
      if r.i+1 ≥ 128 then (r,-22)
      else
        let r := r.copyProperty e
        if r.dest.room = 0 then (r,-22) else envpBufLoop es r.advance

/-- A new buffer of 4096 bytes and an array, with any bytes and pointers in them. -/
def startEnvp (mem : Memory) (envp : ℕ → Option ℕ) : EnvpRun where
  dest := { mem := mem, pos := 0, room := 4096, writes := [] }
  envp := envp
  i := 0
  stores := []

def updateEnvpMonitorBuf (es : UdevList) (mem : Memory) (envp : ℕ → Option ℕ) : EnvpRun × ℤ :=
  envpBufLoop es (startEnvp mem envp)

def assignment (e : ListEntry) : CString := e.name ++ str "=" ++ e.value.getD []

def publicProperties (es : UdevList) : UdevList := es.filter fun e => charAt e.name 0 ≠ chr '.'

def envpBytes (es : UdevList) : ℕ := ((publicProperties es).map fun e => (assignment e).length+1).sum

/-- A property that is not private comes when the strings before it have filled the buffer to its
last byte; there are fewer of them than pointers. -/
def Overflows (es : UdevList) : Prop :=
  ∃ before e rest, es = before ++ e::rest ∧ charAt e.name 0 ≠ chr '.' ∧ envpBytes before = 4096 ∧
    (publicProperties before).length < 126

/-- The array has a pointer to the string of each property that is not private, in their order,
with its terminator inside of the buffer, and `NULL` behind them. -/
def Complete (es : UdevList) (r : EnvpRun) : Prop :=
  (∀ k (hk : k < (publicProperties es).length), ∃ pos, r.envp k = some pos ∧
    pos+(assignment (publicProperties es)[k]).length < 4096 ∧
    ∀ j ≤ (assignment (publicProperties es)[k]).length,
      r.dest.mem (pos+j) = charAt (assignment (publicProperties es)[k]) j) ∧
  r.envp (publicProperties es).length = none

/-- All writes are inside of the buffer and of the array; it succeeds with all properties, or gives an error. -/
def EnvpSafe (es : UdevList) (r : EnvpRun × ℤ) : Prop :=
  (∀ i ∈ r.1.dest.writes, i < 4096) ∧ (∀ i ∈ r.1.stores, i < 128) ∧ (r.2 = 0 ∧ Complete es r.1 ∨ r.2 < 0)

theorem foldl_strpcpy_store {d : Dest} {parts : List CString} (hne : parts ≠ []) (hfit : parts.flatten.length < d.room) :
    (parts.foldl Dest.strpcpy d).mem = d.mem.store d.pos parts.flatten ∧
    (parts.foldl Dest.strpcpy d).pos = d.pos+parts.flatten.length := by
  induction parts generalizing d with
  | nil => exact absurd rfl hne
  | cons src parts ih =>
    rw [List.flatten_cons,List.length_append] at hfit
    have hnot : ¬src.length ≥ d.room := by omega
    have hsrc : d.strpcpy src =
        { mem := d.mem.store d.pos src, pos := d.pos+src.length, room := d.room-src.length,
          writes := d.writes ++ List.range' d.pos (src.length+1) } := by
      simp only [Dest.strpcpy,if_neg hnot]
    rw [List.foldl_cons,hsrc,List.flatten_cons,List.length_append,← store_append]
    by_cases hlast : parts = []
    · subst hlast
      constructor
      · rw [List.flatten_nil,store_append,List.append_nil]
        rfl
      · rfl
    · have hfit' : parts.flatten.length < d.room-src.length := by omega
      obtain ⟨hmem,hpos⟩ := ih (d := ⟨d.mem.store d.pos src,d.pos+src.length,d.room-src.length,_⟩) hlast hfit'
      exact ⟨hmem,hpos.trans (Nat.add_assoc ..)⟩

variable {e : ListEntry} {es : UdevList} {r r' : EnvpRun}

theorem flatten_parts (e : ListEntry) : ([e.name,str "="] ++ e.value.toList).flatten = assignment e := by
  cases hvalue : e.value <;> simp [assignment,hvalue]

theorem publicProperties_private (h : charAt e.name 0 = chr '.') : publicProperties (e::es) = publicProperties es := by
  simp [publicProperties,h]

theorem publicProperties_public (h : charAt e.name 0 ≠ chr '.') : publicProperties (e::es) = e::publicProperties es := by
  simp [publicProperties,h]

theorem envpBytes_public (h : charAt e.name 0 ≠ chr '.') :
    envpBytes (e::es) = (assignment e).length+1+envpBytes es := by
  rw [envpBytes,publicProperties_public h,List.map_cons,List.sum_cons]
  rfl

namespace EnvpRun

theorem copyProperty_room (r : EnvpRun) (e : ListEntry) :
    (r.copyProperty e).dest.room =
      if (assignment e).length < r.dest.room then r.dest.room-(assignment e).length else 0 := by
  rw [← flatten_parts]
  exact Dest.foldl_room r.dest _

theorem copyProperty_mem (h : (assignment e).length < r.dest.room) :
    (r.copyProperty e).dest.mem = r.dest.mem.store r.dest.pos (assignment e) ∧
    (r.copyProperty e).dest.pos = r.dest.pos+(assignment e).length := by
  rw [← flatten_parts] at h ⊢
  exact foldl_strpcpy_store (by simp) h

theorem copyProperty_writes (hend : r.dest.pos+r.dest.room = 4096) (hroom : 0 < r.dest.room)
    (hw : ∀ i ∈ r.dest.writes, i < 4096) (e : ListEntry) : ∀ i ∈ (r.copyProperty e).dest.writes, i < 4096 := by
  have hinside : r.dest.Inside 4096 := ⟨by omega,hw⟩
  exact (hinside.foldl ([e.name,str "="] ++ e.value.toList)).2

theorem copyProperty_full (hend : r.dest.pos = 4096) (hroom : r.dest.room = 0) (e : ListEntry) :
    4096 ∈ (r.copyProperty e).dest.writes := by
  have hmono : ∀ (parts : List CString) (d : Dest), 4096 ∈ d.writes → 4096 ∈ (parts.foldl Dest.strpcpy d).writes := by
    intro parts
    induction parts with
    | nil => exact fun d hd => hd
    | cons src parts ih => exact fun d hd => ih _ (List.mem_append_left _ hd)
  apply hmono (str "="::e.value.toList)
  simp [Dest.strpcpy,hend,hroom]

def next (r : EnvpRun) (e : ListEntry) : EnvpRun := (r.addEntry.copyProperty e).advance

theorem next_i (r : EnvpRun) (e : ListEntry) : (r.next e).i = r.i+1 := rfl

theorem next_envp (r : EnvpRun) (e : ListEntry) : (r.next e).envp = Function.update r.envp r.i (some r.dest.pos) := rfl

theorem next_dest (h : (assignment e).length < r.dest.room) :
    (r.next e).dest.mem = r.dest.mem.store r.dest.pos (assignment e) ∧
    (r.next e).dest.pos = r.dest.pos+(assignment e).length+1 ∧
    (r.next e).dest.room = r.dest.room-(assignment e).length-1 := by
  obtain ⟨hmem,hpos⟩ := copyProperty_mem (r := r.addEntry) h
  have hroom : (r.addEntry.copyProperty e).dest.room = r.dest.room-(assignment e).length :=
    (copyProperty_room r.addEntry e).trans (if_pos h)
  exact ⟨hmem,congrArg (·+1) hpos,congrArg (·-1) hroom⟩

end EnvpRun

open EnvpRun

/-- One property that is not private: no pointer is left for it, or it does not fit, or the loop goes on. -/
theorem envpBufLoop_public (h : charAt e.name 0 ≠ chr '.') (es : UdevList) (r : EnvpRun) :
    envpBufLoop (e::es) r =
      if 126 ≤ r.i then (r.addEntry,-22)
      else if (assignment e).length < r.dest.room then envpBufLoop es (r.next e)
      else (r.addEntry.copyProperty e,-22) := by
  have hi : r.addEntry.i = r.i+1 := rfl
  have hroom : r.addEntry.dest.room = r.dest.room := rfl
  rw [envpBufLoop,if_neg h]
  simp only [hi,copyProperty_room,hroom]
  by_cases hfull : 126 ≤ r.i
  · rw [if_pos hfull,if_pos (by omega)]
  · rw [if_neg hfull,if_neg (by omega)]
    by_cases hfit : (assignment e).length < r.dest.room
    · rw [if_pos hfit,if_pos hfit,if_neg (by omega)]
      rfl
    · rw [if_neg hfit,if_neg hfit,if_pos rfl]

structure Filling (r : EnvpRun) : Prop where
  room : r.dest.pos+r.dest.room = 4096
  writes : ∀ i ∈ r.dest.writes, i < 4096
  entries : r.i ≤ 126
  stores : ∀ i ∈ r.stores, i < 128

theorem filling_start (mem : Memory) (envp : ℕ → Option ℕ) : Filling (startEnvp mem envp) :=
  ⟨rfl,fun _ hi => absurd hi List.not_mem_nil,Nat.zero_le _,fun _ hi => absurd hi List.not_mem_nil⟩

theorem Filling.next (hr : Filling r) (hi : ¬126 ≤ r.i) (hfit : (assignment e).length < r.dest.room) :
    Filling (r.next e) := by
  obtain ⟨-,hpos,hroom⟩ := next_dest hfit
  have hend := hr.room
  have hle := hr.entries
  refine ⟨by omega,?_,by rw [next_i]; omega,?_⟩
  · exact copyProperty_writes (r := r.addEntry) hr.room (by show 0 < r.dest.room; omega) hr.writes e
  · intro i hmem
    rcases List.mem_append.mp hmem with hmem | hmem
    · exact hr.stores i hmem
    · rw [List.mem_singleton.mp hmem]
      omega

theorem envpBufLoop_stores (hr : Filling r) (es : UdevList) : ∀ i ∈ (envpBufLoop es r).1.stores, i < 128 := by
  have hadd : ∀ {r}, Filling r → ∀ i ∈ r.stores ++ [r.i], i < 128 := by
    intro r hr i hmem
    have hle := hr.entries
    rcases List.mem_append.mp hmem with hmem | hmem
    · exact hr.stores i hmem
    · rw [List.mem_singleton.mp hmem]
      omega
  induction es generalizing r with
  | nil => exact hadd hr
  | cons e es ih =>
    by_cases hname : charAt e.name 0 = chr '.'
    · rw [envpBufLoop,if_pos hname]
      exact ih hr
    · rw [envpBufLoop_public hname]
      by_cases hi : 126 ≤ r.i
      · rw [if_pos hi]
        exact hadd hr
      · rw [if_neg hi]
        by_cases hfit : (assignment e).length < r.dest.room
        · rw [if_pos hfit]
          exact ih (hr.next hi hfit)
        · rw [if_neg hfit]
          exact hadd hr

def OverflowsFrom (r : EnvpRun) (es : UdevList) : Prop :=
  ∃ before e rest, es = before ++ e::rest ∧ charAt e.name 0 ≠ chr '.' ∧ envpBytes before = r.dest.room ∧
    r.i+(publicProperties before).length < 126

theorem overflowsFrom_private (h : charAt e.name 0 = chr '.') : OverflowsFrom r (e::es) ↔ OverflowsFrom r es := by
  have hbytes (before : UdevList) : envpBytes (e::before) = envpBytes before := by
    rw [envpBytes,publicProperties_private h]
    rfl
  constructor
  · rintro ⟨before,x,rest,heq,hx,hfull,hcount⟩
    rcases List.cons_eq_append_iff.mp heq with ⟨rfl,hcons⟩ | ⟨before,rfl,rfl⟩
    · exact absurd h ((List.cons.inj hcons).1 ▸ hx)
    · exact ⟨before,x,rest,rfl,hx,(hbytes before).symm.trans hfull,by rwa [publicProperties_private h] at hcount⟩
  · rintro ⟨before,x,rest,rfl,hx,hfull,hcount⟩
    exact ⟨e::before,x,rest,rfl,hx,(hbytes before).trans hfull,by rwa [publicProperties_private h]⟩

theorem overflowsFrom_public (h : charAt e.name 0 ≠ chr '.') :
    OverflowsFrom r (e::es) ↔ r.i < 126 ∧ (r.dest.room = 0 ∨
      (assignment e).length < r.dest.room ∧ OverflowsFrom (r.next e) es) := by
  constructor
  · rintro ⟨before,x,rest,heq,hx,hfull,hcount⟩
    rcases List.cons_eq_append_iff.mp heq with ⟨rfl,-⟩ | ⟨before,rfl,rfl⟩
    · exact ⟨hcount,Or.inl hfull.symm⟩
    · rw [envpBytes_public h] at hfull
      rw [publicProperties_public h,List.length_cons] at hcount
      have hfit : (assignment e).length < r.dest.room := by omega
      obtain ⟨-,-,hroom⟩ := next_dest hfit
      exact ⟨by omega,Or.inr ⟨hfit,before,x,rest,rfl,hx,by omega,by rw [next_i]; omega⟩⟩
  · rintro ⟨hi,hroom | ⟨hfit,before,x,rest,rfl,hx,hfull,hcount⟩⟩
    · exact ⟨[],e,es,rfl,h,hroom.symm,hi⟩
    · obtain ⟨-,-,hroom⟩ := next_dest hfit
      rw [next_i] at hcount
      refine ⟨e::before,x,rest,rfl,hx,?_,?_⟩
      · rw [envpBytes_public h]
        omega
      · rw [publicProperties_public h,List.length_cons]
        omega

/-- The writes stay inside of the buffer if and only if no property comes behind an exact fit. -/
theorem envpBufLoop_writes (hr : Filling r) (es : UdevList) :
    (∀ i ∈ (envpBufLoop es r).1.dest.writes, i < 4096) ↔ ¬OverflowsFrom r es := by
  induction es generalizing r with
  | nil =>
    refine iff_of_true hr.writes ?_
    rintro ⟨before,x,rest,heq,-⟩
    exact absurd heq (by simp)
  | cons e es ih =>
    by_cases hname : charAt e.name 0 = chr '.'
    · rw [envpBufLoop,if_pos hname,overflowsFrom_private hname]
      exact ih hr
    · rw [envpBufLoop_public hname,overflowsFrom_public hname]
      by_cases hi : 126 ≤ r.i
      · rw [if_pos hi]
        exact iff_of_true hr.writes (fun h => absurd h.1 (by omega))
      · rw [if_neg hi]
        by_cases hfit : (assignment e).length < r.dest.room
        · rw [if_pos hfit,ih (hr.next hi hfit),not_iff_not]
          constructor
          · exact fun h => ⟨by omega,Or.inr ⟨hfit,h⟩⟩
          · rintro ⟨-,hroom | h⟩
            · omega
            · exact h.2
        · rw [if_neg hfit]
          have hend := hr.room
          by_cases hroom : r.dest.room = 0
          · refine iff_of_false ?_ (not_not_intro ⟨by omega,Or.inl hroom⟩)
            intro h
            exact absurd (h 4096 (copyProperty_full (r := r.addEntry) (by show r.dest.pos = 4096; omega) hroom e))
              (Nat.lt_irrefl _)
          · refine iff_of_true ?_ ?_
            · exact copyProperty_writes (r := r.addEntry) hr.room (by show 0 < r.dest.room; omega) hr.writes e
            · rintro ⟨-,h | h⟩
              · exact hroom h
              · exact hfit h.1

/-- When the loop ends without an error, the strings and pointers of all properties are there, and
what was there before is not changed. -/
theorem envpBufLoop_complete (hr : Filling r) {es : UdevList} (h : envpBufLoop es r = (r',0)) :
    (∀ j < r.dest.pos, r'.dest.mem j = r.dest.mem j) ∧ (∀ k < r.i, r'.envp k = r.envp k) ∧
    (∀ k (hk : k < (publicProperties es).length), ∃ pos, r'.envp (r.i+k) = some pos ∧
      pos+(assignment (publicProperties es)[k]).length < 4096 ∧
      ∀ j ≤ (assignment (publicProperties es)[k]).length,
        r'.dest.mem (pos+j) = charAt (assignment (publicProperties es)[k]) j) ∧
    r'.envp (r.i+(publicProperties es).length) = none := by
  induction es generalizing r with
  | nil =>
    obtain rfl := (Prod.mk.inj h).1
    refine ⟨fun j _ => rfl,fun k hk => ?_,fun k hk => absurd hk (Nat.not_lt_zero k),?_⟩
    · exact Function.update_of_ne (Nat.ne_of_lt hk) ..
    · exact Function.update_self ..
  | cons e es ih =>
    by_cases hname : charAt e.name 0 = chr '.'
    · rw [envpBufLoop,if_pos hname] at h
      simp only [publicProperties_private hname]
      exact ih hr h
    · rw [envpBufLoop_public hname] at h
      simp only [publicProperties_public hname]
      by_cases hi : 126 ≤ r.i
      · rw [if_pos hi] at h
        exact absurd (Prod.mk.inj h).2 (by decide)
      · rw [if_neg hi] at h
        by_cases hfit : (assignment e).length < r.dest.room
        · rw [if_pos hfit] at h
          obtain ⟨hmem,hpos,-⟩ := next_dest hfit
          obtain ⟨hold,hentries,hall,hend⟩ := ih (hr.next hi hfit) h
          have hroom := hr.room
          rw [next_i] at hentries hall hend
          refine ⟨fun j hj => ?_,fun k hk => ?_,fun k hk => ?_,?_⟩
          · rw [hold j (by omega),hmem,store_of_lt _ _ hj]
          · rw [hentries k (by omega),next_envp,Function.update_of_ne (Nat.ne_of_lt hk)]
          · cases k with
            | zero =>
              refine ⟨r.dest.pos,?_,?_,fun j hj => ?_⟩
              · rw [Nat.add_zero,hentries r.i (Nat.lt_succ_self _),next_envp,Function.update_self]
              · show r.dest.pos+(assignment e).length < 4096
                omega
              · have hj' : j ≤ (assignment e).length := hj
                rw [hold (r.dest.pos+j) (by omega),hmem]
                exact store_at _ _ _ hj'
            | succ k =>
              obtain ⟨pos,hpointer,hin,hstring⟩ := hall k (Nat.lt_of_succ_lt_succ hk)
              have hindex : r.i+(k+1) = r.i+1+k := by omega
              exact ⟨pos,by rw [hindex,hpointer],hin,hstring⟩
          · rw [List.length_cons,Nat.add_comm _ 1,← Nat.add_assoc]
            exact hend
        · rw [if_neg hfit] at h
          exact absurd (Prod.mk.inj h).2 (by decide)

theorem envpBufLoop_result (es : UdevList) (r : EnvpRun) : (envpBufLoop es r).2 = 0 ∨ (envpBufLoop es r).2 < 0 := by
  induction es generalizing r with
  | nil => exact Or.inl rfl
  | cons e es ih =>
    by_cases hname : charAt e.name 0 = chr '.'
    · rw [envpBufLoop,if_pos hname]
      exact ih r
    · rw [envpBufLoop_public hname]
      by_cases hi : 126 ≤ r.i
      · rw [if_pos hi]
        exact Or.inr (by show (-22 : ℤ) < 0; decide)
      · rw [if_neg hi]
        by_cases hfit : (assignment e).length < r.dest.room
        · rw [if_pos hfit]
          exact ih _
        · rw [if_neg hfit]
          exact Or.inr (by show (-22 : ℤ) < 0; decide)

theorem envpLoop_eq (es : UdevList) (r : EnvpRun) :
    envpLoop es r.i r.dest.room =
      if (envpBufLoop es r).2 = 0 then some ((publicProperties es).map assignment) else none := by
  induction es generalizing r with
  | nil => rfl
  | cons e es ih =>
    by_cases hname : charAt e.name 0 = chr '.'
    · rw [envpLoop,if_pos hname,envpBufLoop,if_pos hname,publicProperties_private hname]
      exact ih r
    · rw [envpBufLoop_public hname,publicProperties_public hname]
      by_cases hi : 126 ≤ r.i
      · rw [envpLoop,if_neg hname,if_pos (by omega),if_pos hi,if_neg (by show ¬(-22 : ℤ) = 0; decide)]
      · rw [if_neg hi]
        by_cases hfit : (assignment e).length < r.dest.room
        · obtain ⟨-,-,hroom⟩ := next_dest hfit
          have hnext := ih (r.next e)
          rw [hroom,next_i] at hnext
          have hloop := @envpLoop_cons e es r.i r.dest.room hname (by omega) hfit
          rw [← assignment,hnext] at hloop
          rw [if_pos hfit,hloop,List.map_cons]
          split_ifs
          · rfl
          · rfl
        · have hflat : [e.name,str "=",e.value.getD []].flatten = assignment e := by simp [assignment]
          have hfull := foldl_strpcpy_full (d := ([],r.dest.room)) (hflat ▸ Nat.le_of_not_lt hfit)
          rw [if_neg hfit,envpLoop,if_neg hname,if_neg (by omega)]
          exact (if_pos hfull).trans (if_neg (by show ¬(-22 : ℤ) = 0; decide)).symm

theorem overflowsFrom_start (es : UdevList) (mem : Memory) (envp : ℕ → Option ℕ) :
    OverflowsFrom (startEnvp mem envp) es ↔ Overflows es := by
  simp only [OverflowsFrom,Overflows,startEnvp,Nat.zero_add]

theorem updateEnvpMonitorBuf_writes (es : UdevList) (mem : Memory) (envp : ℕ → Option ℕ) :
    (∀ i ∈ (updateEnvpMonitorBuf es mem envp).1.dest.writes, i < 4096) ↔ ¬Overflows es := by
  rw [← overflowsFrom_start es mem envp]
  exact envpBufLoop_writes (filling_start mem envp) es

/-- With any memory in the new buffers, the writes are inside and the outcome is right if and only if
no property comes when the strings before it end with the last byte of the buffer. -/
theorem updateEnvpMonitorBuf_iff (es : UdevList) (mem : Memory) (envp : ℕ → Option ℕ) :
    EnvpSafe es (updateEnvpMonitorBuf es mem envp) ↔ ¬Overflows es := by
  have hstart := filling_start mem envp
  constructor
  · exact fun h => (updateEnvpMonitorBuf_writes es mem envp).mp h.1
  · intro h
    refine ⟨(updateEnvpMonitorBuf_writes es mem envp).mpr h,envpBufLoop_stores hstart es,?_⟩
    rcases envpBufLoop_result es (startEnvp mem envp) with hret | hret
    · obtain ⟨-,-,hall,hend⟩ := envpBufLoop_complete hstart (Prod.ext rfl hret)
      simp only [startEnvp,Nat.zero_add] at hall hend
      exact Or.inl ⟨hret,hall,hend⟩
    · exact Or.inr hret

/-- A value that fills the buffer to its last byte. -/
def fullValue : CString := List.replicate 4093 (chr 'x')

theorem exactFit_writes_outside :
    ¬EnvpSafe [⟨str "A",some fullValue,1⟩,⟨str "B",some (str "1"),1⟩]
      (updateEnvpMonitorBuf [⟨str "A",some fullValue,1⟩,⟨str "B",some (str "1"),1⟩] (fun _ => 0) fun _ => none) := by
  have hlen : fullValue.length = 4093 := List.length_replicate
  intro h
  refine (updateEnvpMonitorBuf_writes _ _ _).mp h.1 ⟨[⟨str "A",some fullValue,1⟩],_,[],rfl,?_,?_,?_⟩
  · decide
  · rw [envpBytes_public (by decide)]
    simp [assignment,envpBytes,publicProperties,str,hlen]
  · rw [publicProperties_public (by decide)]
    simp [publicProperties]

end Device
end Udev
