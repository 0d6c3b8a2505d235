import Udev.Memory
import Udev.Runs
import Mathlib.Data.List.GetD
import Mathlib.Data.List.TakeWhile

/-! `spawn_read`: the standard output of a child is collected in the buffer of the caller, chunk
by chunk, until both pipes hang up or the loop is left. What the child writes and what the loop
does are steps in any order; whether the call succeeds depends on the exit status alone. -/
namespace Udev
namespace SpawnRead

open CString Memory Runs

def memcpy (m : Memory) (pos : ℕ) (bytes : List UInt8) : Memory := fun i =>
  if pos ≤ i ∧ i < pos+bytes.length then charAt bytes (i-pos) else m i

inductive Fd
  | out | err
  deriving DecidableEq, Repr

inductive Leave
  | epollCreate | epollAdd | timeout | pollError
  deriving DecidableEq, Repr

/-- The child's pipe for its output and the state of the loop. `result` is the buffer, as a function of the
bytes that it had before. `ended` says how the loop ended: at its end with a terminator, or not. -/
structure Reading where
  result : Memory → Memory := id
  respos : ℕ := 0
  pipe : List UInt8 := []
  total : List UInt8 := []
  hungUp : Bool := false
  fdStdout : Bool := true
  fdStderr : Bool
  begun : Bool := false
  ended : Option Bool := none

/-- The child writes to its output or closes it; in the loop `poll` is interrupted, or the loop is left,
or one event is handled: bytes from a pipe, a failed read, or a hangup, which may fail to be removed. -/
inductive Act
  | write (chunk : List UInt8)
  | close
  | interrupted
  | leave (why : Leave)
  | readOut (chunk : List UInt8)
  | readErr
  | readFails
  | hangup (fd : Fd) (fails : Bool)
  deriving DecidableEq, Repr

/-- "store stdout result" -/
def storeChunk (ressize : ℕ) (s : Reading) (chunk : List UInt8) : Reading :=
  if s.respos+chunk.length < ressize then
    { s with result := fun m => memcpy (s.result m) s.respos chunk, respos := s.respos+chunk.length }
  else s

/-- The test of the loop behind a hangup, and "return the child's stdout string". -/
def finish (s : Reading) : Reading :=
  if s.fdStdout || s.fdStderr then s
  else { s with result := fun m => Function.update (s.result m) s.respos 0, ended := some true }

def loopStep (ressize : ℕ) (s : Reading) : Act → Option Reading
  | .interrupted => some { s with begun := true }
  | .leave why =>
    -- the set-up comes before the first round
    if (why = .epollCreate ∨ why = .epollAdd) ∧ s.begun then none else some { s with begun := true, ended := some false }
  | .readOut chunk =>
    if s.fdStdout ∧ chunk ≠ [] ∧ chunk.length ≤ 4095 ∧ chunk <+: s.pipe then
      some (storeChunk ressize { s with pipe := s.pipe.drop chunk.length, begun := true } chunk)
    else none
  | .readErr => if s.fdStderr then some { s with begun := true } else none
  | .readFails => some { s with begun := true }
  | .hangup .out fails =>
    -- the hangup alone is reported when nothing is left in the pipe
    if s.fdStdout ∧ s.hungUp ∧ s.pipe = [] then
      if fails then some { s with begun := true, ended := some false }
      else some (finish { s with begun := true, fdStdout := false })
    else none
  | .hangup .err fails =>
    if s.fdStderr then
      if fails then some { s with begun := true, ended := some false }
      else some (finish { s with begun := true, fdStderr := false })
    else none
  | _ => none

def step (ressize : ℕ) (s : Reading) (a : Act) : Option Reading :=
  match a with
  | .write chunk => if s.hungUp then none else some { s with pipe := s.pipe ++ chunk, total := s.total ++ chunk }
  | .close => some { s with hungUp := true }
  | a => if s.ended.isSome then none else loopStep ressize s a

/-- The chunks that are read from the output. -/
def chunksOf (as : List Act) : List (List UInt8) :=
  as.filterMap fun
    | .readOut chunk => some chunk
    | _ => none

def fitting (ressize : ℕ) : ℕ → List (List UInt8) → List UInt8
  | _, [] => []
  | pos, c::cs => if pos+c.length < ressize then c ++ fitting ressize (pos+c.length) cs else fitting ressize pos cs

/-- The buffer has a C string with its terminator inside, which is a begin of the child's output, and all of it
when the output is shorter than the buffer. -/
def Captured (ressize : ℕ) (s : Reading) : Prop :=
  ∀ m, ∃ t, 0 ∉ t ∧ Holds (s.result m) t ∧ s.result m t.length = 0 ∧ t.length < ressize ∧ t <+: s.total ∧
    (s.total.length < ressize → t = s.total)

/-- Every chunk that fits behind a lost one repeats the bytes of that at its place, up to a NUL. -/
def Repeats (ressize : ℕ) : ℕ → List UInt8 → List (List UInt8) → Prop
  | _, _, [] => True
  | pos, lost, c::cs =>
    if pos+c.length < ressize then
      c.takeWhile (· ≠ 0) <+: lost ∧ (0 ∈ c ∨ Repeats ressize (pos+c.length) (lost.drop c.length) cs)
    else Repeats ressize pos lost cs

/-- The chunks fit one behind the other, up to a NUL or to the first one that does not, and the ones behind
that do not fit or repeat it. -/
def InOrder (ressize : ℕ) : ℕ → List (List UInt8) → Prop
  | _, [] => True
  | pos, c::cs =>
    if pos+c.length < ressize then 0 ∈ c ∨ InOrder ressize (pos+c.length) cs else Repeats ressize pos c cs

/-- A chunk with a NUL fits behind the ones that fit before it. -/
def NulFits (ressize : ℕ) : ℕ → List (List UInt8) → Prop
  | _, [] => False
  | pos, c::cs => if pos+c.length < ressize then 0 ∈ c ∨ NulFits ressize (pos+c.length) cs else NulFits ressize pos cs

def Stays : Act → Prop
  | .leave _ | .hangup _ true => False
  | _ => True

theorem memcpy_holds {m : Memory} {t : List UInt8} (h : Holds m t) (bytes : List UInt8) :
    Holds (memcpy m t.length bytes) (t ++ bytes) := by
  intro i hi
  rw [List.length_append] at hi
  rw [memcpy]
  by_cases hlt : i < t.length
  · rw [if_neg (by omega),charAt_append_left hlt,h i hlt]
  · obtain ⟨j,rfl⟩ := Nat.exists_eq_add_of_le (Nat.le_of_not_lt hlt)
    rw [if_pos (by omega),charAt_append_right,Nat.add_sub_cancel_left]

theorem memcpy_behind {m : Memory} {pos i : ℕ} (bytes : List UInt8) (h : pos+bytes.length ≤ i) :
    memcpy m pos bytes i = m i := if_neg (by omega)

theorem fitting_append (ressize pos : ℕ) (cs : List (List UInt8)) (c : List UInt8) :
    fitting ressize pos (cs ++ [c]) =
      fitting ressize pos cs ++ if pos+(fitting ressize pos cs).length+c.length < ressize then c else [] := by
  induction cs generalizing pos with
  | nil => simp [fitting]
  | cons d cs ih =>
    rw [List.cons_append,fitting,fitting]
    by_cases hfit : pos+d.length < ressize
    · rw [if_pos hfit,if_pos hfit,ih,List.length_append,List.append_assoc,Nat.add_assoc pos]
    · rw [if_neg hfit,if_neg hfit,ih]

theorem fitting_length {ressize pos : ℕ} (h : pos < ressize) (cs : List (List UInt8)) :
    pos+(fitting ressize pos cs).length < ressize := by
  induction cs generalizing pos with
  | nil => exact h
  | cons c cs ih =>
    rw [fitting]
    by_cases hfit : pos+c.length < ressize
    · rw [if_pos hfit,List.length_append,← Nat.add_assoc]
      exact ih hfit
    · rw [if_neg hfit]
      exact ih h

theorem fitting_sublist (ressize pos : ℕ) (cs : List (List UInt8)) :
    (fitting ressize pos cs).Sublist cs.flatten := by
  induction cs generalizing pos with
  | nil => exact List.Sublist.refl []
  | cons c cs ih =>
    rw [fitting,List.flatten_cons]
    by_cases hfit : pos+c.length < ressize
    · rw [if_pos hfit]
      exact (ih _).append_left c
    · rw [if_neg hfit]
      exact (ih _).trans (List.sublist_append_right c _)

theorem fitting_eq_nil {ressize pos : ℕ} {cs : List (List UInt8)} (h : ∀ d ∈ cs, ¬pos+d.length < ressize) :
    fitting ressize pos cs = [] := by
  induction cs with
  | nil => rfl
  | cons c cs ih =>
    rw [fitting,if_neg (h c List.mem_cons_self)]
    exact ih fun d hd => h d (List.mem_cons_of_mem _ hd)

theorem fitting_all {ressize pos : ℕ} {cs : List (List UInt8)} (h : pos+cs.flatten.length < ressize) :
    fitting ressize pos cs = cs.flatten := by
  induction cs generalizing pos with
  | nil => rfl
  | cons c cs ih =>
    rw [List.flatten_cons,List.length_append] at h
    rw [fitting,if_pos (by omega),ih (by omega),List.flatten_cons]

/-- What holds of the state behind the chunks that were read. -/
structure Collected (ressize : ℕ) (s : Reading) (cs : List (List UInt8)) : Prop where
  holds : ∀ m, Holds (s.result m) (fitting ressize 0 cs)
  respos : s.respos = (fitting ressize 0 cs).length
  behind : ∀ m i, (fitting ressize 0 cs).length < i → s.result m i = m i
  open_end : s.ended ≠ some true → ∀ m, s.result m (fitting ressize 0 cs).length = m (fitting ressize 0 cs).length
  terminated : s.ended = some true → s.fdStdout = false ∧ ∀ m, s.result m (fitting ressize 0 cs).length = 0
  total : s.total = cs.flatten ++ s.pipe
  drained : s.fdStdout = false → s.pipe = [] ∧ s.hungUp = true

variable {ressize : ℕ} {s t u : Reading} {cs : List (List UInt8)} {chunk : List UInt8} {as : List Act}

theorem Collected.finish (hs : Collected ressize s cs) : Collected ressize (finish s) cs := by
  rw [SpawnRead.finish]
  cases hout : s.fdStdout with
  | true => exact hs
  | false =>
    cases herr : s.fdStderr with
    | true => exact hs
    | false =>
      rw [if_neg (by decide)]
      refine ⟨fun m i hi => ?_,hs.respos,fun m i hi => ?_,fun h => absurd rfl h,fun _ => ⟨rfl,fun m => ?_⟩,hs.total,
        fun _ => hs.drained hout⟩
      · show Function.update (s.result m) s.respos 0 i = _
        rw [hs.respos,Function.update_of_ne (Nat.ne_of_lt hi)]
        exact hs.holds m i hi
      · show Function.update (s.result m) s.respos 0 i = _
        rw [hs.respos,Function.update_of_ne (Nat.ne_of_gt hi)]
        exact hs.behind m i hi
      · show Function.update (s.result m) s.respos 0 _ = 0
        rw [hs.respos,Function.update_self]

theorem Collected.storeChunk (hs : Collected ressize s cs) (hended : s.ended = none) (hpipe : chunk <+: s.pipe)
    (hout : s.fdStdout = true) :
    Collected ressize (storeChunk ressize { s with pipe := s.pipe.drop chunk.length, begun := true } chunk) (cs ++ [chunk]) := by
  have htotal : s.total = (cs ++ [chunk]).flatten ++ s.pipe.drop chunk.length := by
    obtain ⟨r,hr⟩ := hpipe
    rw [hs.total,← hr,List.drop_left,List.flatten_append]
    simp
  have hnot : ¬s.fdStdout = false := by rw [hout]; decide
  have hfitting := fitting_append ressize 0 cs chunk
  rw [Nat.zero_add,← hs.respos] at hfitting
  rw [SpawnRead.storeChunk]
  by_cases hfit : s.respos+chunk.length < ressize
  · rw [if_pos hfit] at hfitting
    have hlen : (fitting ressize 0 (cs ++ [chunk])).length = s.respos+chunk.length := by
      rw [hfitting,List.length_append,hs.respos]
    have hbehind : ∀ m i, s.respos+chunk.length ≤ i → memcpy (s.result m) s.respos chunk i = m i := by
      intro m i hi
      rw [memcpy_behind chunk hi]
      rcases Nat.eq_or_lt_of_le (show s.respos ≤ i by omega) with rfl | hlt
      · rw [hs.respos]
        exact hs.open_end (by rw [hended]; decide) m
      · exact hs.behind m i (by rw [← hs.respos]; exact hlt)
    rw [if_pos hfit]
    refine ⟨fun m => ?_,hlen.symm,fun m i hi => hbehind m i (by omega),fun _ m => hbehind m _ (by omega),?_,htotal,
      fun h => absurd h hnot⟩
    · rw [hfitting]
      show Holds (memcpy (s.result m) s.respos chunk) _
      rw [hs.respos]
      exact memcpy_holds (hs.holds m) chunk
    · intro h
      rw [show s.ended = some true from h] at hended
      cases hended
  · rw [if_neg hfit,List.append_nil] at hfitting
    rw [if_neg hfit]
    refine ⟨?_,?_,?_,?_,?_,htotal,fun h => absurd h hnot⟩
    · rw [hfitting]
      exact hs.holds
    · rw [hfitting]
      exact hs.respos
    · rw [hfitting]
      exact hs.behind
    · rw [hfitting]
      exact hs.open_end
    · rw [hfitting]
      exact hs.terminated

theorem Collected.left (hs : Collected ressize s cs) (hended : s.ended = none) :
    Collected ressize { s with begun := true, ended := some false } cs where
  holds := hs.holds
  respos := hs.respos
  behind := hs.behind
  open_end _ := hs.open_end (by rw [hended]; decide)
  terminated h := nomatch h
  total := hs.total
  drained := hs.drained

theorem Collected.begin (hs : Collected ressize s cs) : Collected ressize { s with begun := true } cs :=
  ⟨hs.holds,hs.respos,hs.behind,hs.open_end,hs.terminated,hs.total,hs.drained⟩

theorem Collected.loopStep {a : Act} (hs : Collected ressize s cs) (hended : s.ended = none)
    (h : loopStep ressize s a = some t) : Collected ressize t (cs ++ chunksOf [a]) := by
  cases a with
  | write chunk | close => cases h
  | interrupted | readFails =>
    obtain rfl := Option.some.inj h
    rw [show chunksOf [_] = [] from rfl,List.append_nil]
    exact hs.begin
  | leave why =>
    simp only [SpawnRead.loopStep] at h
    split_ifs at h
    obtain rfl := Option.some.inj h
    rw [show chunksOf [_] = [] from rfl,List.append_nil]
    exact hs.left hended
  | readOut chunk =>
    simp only [SpawnRead.loopStep] at h
    split_ifs at h with hread
    obtain rfl := Option.some.inj h
    exact hs.storeChunk hended hread.2.2.2 hread.1
  | readErr =>
    simp only [SpawnRead.loopStep] at h
    split_ifs at h
    obtain rfl := Option.some.inj h
    rw [show chunksOf [_] = [] from rfl,List.append_nil]
    exact hs.begin
  | hangup fd fails =>
    rw [show chunksOf [_] = [] from rfl,List.append_nil]
    cases fd with
    | out =>
      simp only [SpawnRead.loopStep] at h
      split_ifs at h with hopen hfails
      · obtain rfl := Option.some.inj h
        exact hs.left hended
      · obtain rfl := Option.some.inj h
        apply Collected.finish
        refine ⟨hs.holds,hs.respos,hs.behind,hs.open_end,fun hend => ?_,hs.total,fun _ => ⟨hopen.2.2,hopen.2.1⟩⟩
        rw [show s.ended = some true from hend] at hended
        cases hended
    | err =>
      simp only [SpawnRead.loopStep] at h
      split_ifs at h with hopen hfails
      · obtain rfl := Option.some.inj h
        exact hs.left hended
      · obtain rfl := Option.some.inj h
        exact Collected.finish ⟨hs.holds,hs.respos,hs.behind,hs.open_end,hs.terminated,hs.total,hs.drained⟩

theorem Collected.step {a : Act} (hs : Collected ressize s cs) (h : step ressize s a = some t) :
    Collected ressize t (cs ++ chunksOf [a]) := by
  have hloop : ∀ {b}, (if s.ended.isSome = true then none else SpawnRead.loopStep ressize s b) = some t →
      Collected ressize t (cs ++ chunksOf [b]) := by
    intro b hb
    cases hended : s.ended with
    | none =>
      rw [hended] at hb
      exact hs.loopStep hended hb
    | some e =>
      rw [hended] at hb
      cases hb
  cases a with
  | write chunk =>
    simp only [SpawnRead.step] at h
    split_ifs at h with hhung
    obtain rfl := Option.some.inj h
    rw [show chunksOf [_] = [] from rfl,List.append_nil]
    refine ⟨hs.holds,hs.respos,hs.behind,hs.open_end,hs.terminated,?_,fun hout => absurd (hs.drained hout).2 hhung⟩
    show s.total ++ chunk = cs.flatten ++ (s.pipe ++ chunk)
    rw [hs.total,List.append_assoc]
  | close =>
    obtain rfl := Option.some.inj h
    rw [show chunksOf [_] = [] from rfl,List.append_nil]
    exact ⟨hs.holds,hs.respos,hs.behind,hs.open_end,hs.terminated,hs.total,fun hout => ⟨(hs.drained hout).1,rfl⟩⟩
  | interrupted | leave _ | readOut _ | readErr | readFails | hangup _ _ => exact hloop h

theorem chunksOf_cons (a : Act) (as : List Act) : chunksOf (a::as) = chunksOf [a] ++ chunksOf as := by
  rw [chunksOf,← List.singleton_append,List.filterMap_append]
  rfl

theorem Collected.run (hs : Collected ressize s cs) (h : run (SpawnRead.step ressize) s as = some u) :
    Collected ressize u (cs ++ chunksOf as) := by
  induction as generalizing s cs with
  | nil =>
    obtain rfl := Option.some.inj h
    rw [show chunksOf [] = [] from rfl,List.append_nil]
    exact hs
  | cons a as ih =>
    obtain ⟨t,ht,hu⟩ := run_cons_some.mp h
    have hrest := ih (hs.step ht) hu
    rwa [List.append_assoc,← chunksOf_cons] at hrest

/-- The begin of `spawn_read`. -/
def start (fdStderr : Bool) : Reading := { fdStderr := fdStderr }

theorem collected_start (ressize : ℕ) (fdStderr : Bool) : Collected ressize (start fdStderr) [] where
  holds m := holds_nil m
  respos := rfl
  behind _ _ _ := rfl
  open_end _ _ := rfl
  terminated h := nomatch h
  total := rfl
  drained h := nomatch h

theorem finish_ended (hended : s.ended = none) : (finish s).ended ≠ some false := by
  rw [finish]
  split_ifs
  · rw [hended]
    decide
  · show some true ≠ some false
    decide

/-- A step leaves the loop before its end if and only if it is one that does not stay. -/
theorem step_ended {a : Act} (h : step ressize s a = some t) :
    t.ended = some false ↔ s.ended = some false ∨ ¬Stays a := by
  have hloop : ∀ {b}, (if s.ended.isSome = true then none else loopStep ressize s b) = some t →
      (loopStep ressize s b = some t → s.ended = none → (t.ended = some false ↔ ¬Stays b)) →
      (t.ended = some false ↔ s.ended = some false ∨ ¬Stays b) := by
    intro b hb hiff
    cases hended : s.ended with
    | none =>
      rw [hended] at hb
      rw [hiff hb hended]
      simp
    | some e =>
      rw [hended] at hb
      cases hb
  cases a with
  | write chunk =>
    simp only [step] at h
    split_ifs at h
    obtain rfl := Option.some.inj h
    exact (or_iff_left (not_not_intro trivial)).symm
  | close =>
    obtain rfl := Option.some.inj h
    exact (or_iff_left (not_not_intro trivial)).symm
  | interrupted | readFails =>
    refine hloop h fun hb hended => ?_
    obtain rfl := Option.some.inj hb
    exact iff_of_false (by show s.ended ≠ some false; rw [hended]; decide) (not_not_intro trivial)
  | leave why =>
    refine hloop h fun hb _ => ?_
    simp only [loopStep] at hb
    split_ifs at hb
    obtain rfl := Option.some.inj hb
    exact iff_of_true rfl id
  | readOut chunk =>
    refine hloop h fun hb hended => ?_
    simp only [loopStep] at hb
    split_ifs at hb
    obtain rfl := Option.some.inj hb
    refine iff_of_false ?_ (not_not_intro trivial)
    rw [storeChunk]
    split_ifs
    · show s.ended ≠ some false
      rw [hended]
      decide
    · show s.ended ≠ some false
      rw [hended]
      decide
  | readErr =>
    refine hloop h fun hb hended => ?_
    simp only [loopStep] at hb
    split_ifs at hb
    obtain rfl := Option.some.inj hb
    exact iff_of_false (by show s.ended ≠ some false; rw [hended]; decide) (not_not_intro trivial)
  | hangup fd fails =>
    refine hloop h fun hb hended => ?_
    cases fd with
    | out | err =>
      simp only [loopStep] at hb
      split_ifs at hb with hopen hfails
      · obtain rfl := Option.some.inj hb
        subst hfails
        exact iff_of_true rfl id
      · obtain rfl := Option.some.inj hb
        obtain rfl := Bool.eq_false_iff.mpr hfails
        refine iff_of_false (finish_ended hended) (not_not_intro trivial)

theorem run_ended (h : Runs.run (step ressize) s as = some u) :
    u.ended = some false ↔ s.ended = some false ∨ ∃ a ∈ as, ¬Stays a := by
  induction as generalizing s with
  | nil =>
    obtain rfl := Option.some.inj h
    simp
  | cons a as ih =>
    obtain ⟨t,ht,hu⟩ := run_cons_some.mp h
    rw [ih hu,step_ended ht,List.exists_mem_cons_iff,or_assoc]

theorem holds_isPrefix {m : Memory} {x y : List UInt8} (hx : Holds m x) (hy : Holds m y) (hlen : x.length ≤ y.length) :
    x <+: y := by
  rw [List.prefix_iff_getElem]
  refine ⟨hlen,fun i hi => ?_⟩
  have hcharx : charAt x i = x[i] := List.getD_eq_getElem _ _ hi
  have hchary : charAt y i = y[i] := List.getD_eq_getElem _ _ (by omega)
  rw [← hcharx,← hchary,← hx i hi,← hy i (by omega)]

theorem takeWhile_nul (x : List UInt8) : charAt x (x.takeWhile (· ≠ 0)).length = 0 :=
  (charAt_takeWhile x le_rfl).trans (charAt_length _)

theorem takeWhile_append_nul (c d : List UInt8) :
    (c ++ d).takeWhile (· ≠ 0) = if 0 ∈ c then c.takeWhile (· ≠ 0) else c ++ d.takeWhile (· ≠ 0) := by
  have hiff : (c.takeWhile (· ≠ 0)).length = c.length ↔ 0 ∉ c := by
    constructor
    · intro hlen hmem
      have hself : c.takeWhile (· ≠ 0) = c := (List.takeWhile_prefix _).eq_of_length hlen
      simpa using List.takeWhile_eq_self_iff.mp hself 0 hmem
    · intro h
      rw [List.takeWhile_eq_self_iff.mpr]
      intro x hx
      exact decide_eq_true fun heq => h (heq ▸ hx)
  rw [List.takeWhile_append]
  by_cases hmem : (0 : UInt8) ∈ c
  · rw [if_neg fun h => hiff.mp h hmem,if_pos hmem]
  · rw [if_pos (hiff.mpr hmem),if_neg hmem]

theorem eq_takeWhile {x y : List UInt8} (hx : 0 ∉ x) (hpre : x <+: y) (hend : x = y ∨ charAt y x.length = 0) :
    x = y.takeWhile (· ≠ 0) := by
  obtain ⟨z,rfl⟩ := hpre
  rw [takeWhile_append_nul,if_neg hx]
  cases z with
  | nil => simp
  | cons b z =>
    rcases hend with h | h
    · simp at h
    · have hb : b = 0 := by simpa [charAt] using h
      simp [hb]

theorem repeats_iff {pos : ℕ} {lost : List UInt8} :
    Repeats ressize pos lost cs ↔ (fitting ressize pos cs).takeWhile (· ≠ 0) <+: lost := by
  induction cs generalizing pos lost with
  | nil => exact iff_of_true trivial List.nil_prefix
  | cons c cs ih =>
    rw [Repeats,fitting]
    by_cases hfit : pos+c.length < ressize
    · rw [if_pos hfit,if_pos hfit,takeWhile_append_nul]
      by_cases hmem : (0 : UInt8) ∈ c
      · rw [if_pos hmem,and_iff_left (Or.inl hmem)]
      · have hall : c.takeWhile (· ≠ 0) = c := by
          have := takeWhile_append_nul c []
          rwa [if_neg hmem,List.append_nil,List.takeWhile_nil,List.append_nil] at this
        rw [if_neg hmem,or_iff_right hmem,hall,ih]
        constructor
        · rintro ⟨⟨z,rfl⟩,hrest⟩
          rw [List.drop_left] at hrest
          exact (List.prefix_append_right_inj c).mpr hrest
        · rintro ⟨z,rfl⟩
          rw [List.append_assoc,List.drop_left]
          exact ⟨List.prefix_append _ _,List.prefix_append _ _⟩
    · rw [if_neg hfit,if_neg hfit,ih]

theorem inOrder_iff {pos : ℕ} (rest : List UInt8) :
    InOrder ressize pos cs ↔ (fitting ressize pos cs).takeWhile (· ≠ 0) <+: cs.flatten ++ rest := by
  induction cs generalizing pos with
  | nil => exact iff_of_true trivial List.nil_prefix
  | cons c cs ih =>
    rw [InOrder,fitting,List.flatten_cons,List.append_assoc]
    by_cases hfit : pos+c.length < ressize
    · rw [if_pos hfit,if_pos hfit,takeWhile_append_nul]
      by_cases hmem : (0 : UInt8) ∈ c
      · rw [if_pos hmem]
        exact iff_of_true (Or.inl hmem) ((List.takeWhile_prefix _).trans (List.prefix_append _ _))
      · rw [if_neg hmem,or_iff_right hmem,ih]
        exact (List.prefix_append_right_inj c).symm
    · rw [if_neg hfit,if_neg hfit,repeats_iff]
      refine ⟨fun h => h.trans (List.prefix_append _ _),fun h => ?_⟩
      refine List.prefix_of_prefix_length_le h (List.prefix_append _ _) ?_
      refine (List.takeWhile_prefix _).length_le.trans ?_
      by_cases hpos : pos < ressize
      · have := fitting_length hpos cs
        omega
      · rw [fitting_eq_nil fun d _ => by omega]
        exact Nat.zero_le _

theorem nulFits_iff {pos : ℕ} : NulFits ressize pos cs ↔ 0 ∈ fitting ressize pos cs := by
  induction cs generalizing pos with
  | nil => exact iff_of_false id List.not_mem_nil
  | cons c cs ih =>
    rw [NulFits,fitting]
    by_cases hfit : pos+c.length < ressize
    · rw [if_pos hfit,if_pos hfit,ih,List.mem_append]
    · rw [if_neg hfit,if_neg hfit,ih]

theorem Collected.mem_total (hs : Collected ressize s cs) {b : UInt8} (h : b ∈ fitting ressize 0 cs) : b ∈ s.total := by
  rw [hs.total]
  exact List.mem_append_left _ ((fitting_sublist ressize 0 cs).subset h)

/-- The string in the buffer: the bytes that were kept, up to a NUL that the child wrote. -/
theorem captured_iff_begin (hsize : 0 < ressize) (hs : Collected ressize s cs) :
    Captured ressize s ↔ (fitting ressize 0 cs).takeWhile (· ≠ 0) <+: s.total ∧
      (s.total.length < ressize → 0 ∉ s.total) ∧ (s.ended = some true ∨ 0 ∈ fitting ressize 0 cs) := by
  have hkept := fitting_length hsize cs
  have hbegin : (fitting ressize 0 cs).takeWhile (· ≠ 0) <+: fitting ressize 0 cs := List.takeWhile_prefix _
  rw [Nat.zero_add] at hkept
  constructor
  · intro hcaptured
    obtain ⟨x,hnul,hx,hend,-,hpre,hall⟩ := hcaptured fun _ => 1
    have hle : x.length ≤ (fitting ressize 0 cs).length := by
      by_contra hlt
      rw [hs.behind _ _ (Nat.lt_of_not_le hlt)] at hend
      cases hend
    have hsame := holds_isPrefix hx (hs.holds _) hle
    have hcut : x.length < (fitting ressize 0 cs).length → charAt (fitting ressize 0 cs) x.length = 0 := by
      intro hlt
      rw [← hs.holds _ _ hlt,hend]
    have hstring : x = (fitting ressize 0 cs).takeWhile (· ≠ 0) := by
      refine eq_takeWhile hnul hsame ?_
      rcases Nat.eq_or_lt_of_le hle with heq | hlt
      · exact Or.inl (hsame.eq_of_length heq)
      · exact Or.inr (hcut hlt)
    refine ⟨hstring ▸ hpre,fun hshort => hall hshort ▸ hnul,?_⟩
    rcases Nat.eq_or_lt_of_le hle with heq | hlt
    · refine Or.inl (by_contra fun hnot => ?_)
      rw [heq,hs.open_end hnot] at hend
      cases hend
    · have hget : (fitting ressize 0 cs)[x.length] = 0 := by
        rw [← hcut hlt]
        exact (List.getD_eq_getElem _ _ hlt).symm
      exact Or.inr (hget ▸ List.getElem_mem hlt)
  · rintro ⟨hpre,hshort,hend⟩ m
    have hholds : Holds (s.result m) ((fitting ressize 0 cs).takeWhile (· ≠ 0)) := by
      obtain ⟨r,hr⟩ := hbegin
      have := hs.holds m
      rw [← hr] at this
      exact this.left
    have hnul : 0 ∉ (fitting ressize 0 cs).takeWhile (· ≠ 0) := fun h => by simpa using List.mem_takeWhile_imp h
    have hzero : s.result m ((fitting ressize 0 cs).takeWhile (· ≠ 0)).length = 0 := by
      rcases Nat.eq_or_lt_of_le hbegin.length_le with heq | hlt
      · have hsame := hbegin.eq_of_length heq
        rw [hsame] at hnul ⊢
        exact (hs.terminated (hend.resolve_right hnul)).2 m
      · rw [hs.holds m _ hlt,takeWhile_nul]
    refine ⟨_,hnul,hholds,hzero,hbegin.length_le.trans_lt hkept,hpre,fun hlen => ?_⟩
    have hnot : 0 ∉ fitting ressize 0 cs := fun h => hshort hlen (hs.mem_total h)
    obtain ⟨hout,-⟩ := hs.terminated (hend.resolve_right hnot)
    have htotal := hs.total
    rw [(hs.drained hout).1,List.append_nil] at htotal
    have hall : fitting ressize 0 cs = s.total := by
      rw [htotal,fitting_all (by rw [Nat.zero_add,← htotal]; exact hlen)]
    have hself := takeWhile_append_nul (fitting ressize 0 cs) []
    rw [if_neg hnot,List.append_nil,List.takeWhile_nil,List.append_nil] at hself
    rw [hself,hall]

/-- For every sequence of chunks and any other order of events the C string in the buffer is a begin of the
child's output, and all of it when it is shorter, if and only if the loop is not left before its end (or a
chunk with a NUL fits), a short output has no NUL, and no chunk fits behind a lost one but to repeat it. -/
theorem captured_iff (hsize : 0 < ressize) {fdStderr : Bool} (hrun : Runs.run (step ressize) (start fdStderr) as = some u)
    (hended : u.ended.isSome) :
    Captured ressize u ↔ InOrder ressize 0 (chunksOf as) ∧ (u.total.length < ressize → 0 ∉ u.total) ∧
      ((∀ a ∈ as, Stays a) ∨ NulFits ressize 0 (chunksOf as)) := by
  have hs := (collected_start ressize fdStderr).run hrun
  rw [List.nil_append] at hs
  have hstays : u.ended = some true ↔ ∀ a ∈ as, Stays a := by
    have hfalse := run_ended hrun
    rw [start,or_iff_right (by simp)] at hfalse
    constructor
    · intro htrue a ha
      by_contra hnot
      rw [hfalse.mpr ⟨a,ha,hnot⟩] at htrue
      cases htrue
    · intro hall
      cases hcase : u.ended with
      | none => rw [hcase] at hended; cases hended
      | some b =>
        cases b with
        | true => rfl
        | false =>
          obtain ⟨a,ha,hnot⟩ := hfalse.mp hcase
          exact absurd (hall a ha) hnot
  rw [captured_iff_begin hsize hs,hstays,nulFits_iff,inOrder_iff u.pipe,← hs.total]

def droppedRun : List Act :=
  [.write (str "abcd"),.readOut (str "abcd"),.write (str "x"),.readOut (str "x"),.close,.hangup .out false]

theorem dropped_not_captured :
    ¬∀ as u, Runs.run (step 4) (start false) as = some u → u.ended.isSome → Captured 4 u := by
  intro h
  obtain ⟨u,hu,hended,hresult,htotal⟩ : ∃ u, Runs.run (step 4) (start false) droppedRun = some u ∧ u.ended.isSome ∧
      u.result (fun _ => 1) 0 = chr 'x' ∧ u.total = str "abcdx" := ⟨_,rfl,rfl,rfl,rfl⟩
  obtain ⟨t,-,ht,hend,-,hpre,-⟩ := h droppedRun u hu hended fun _ => 1
  rw [htotal] at hpre
  cases t with
  | nil =>
    rw [List.length_nil,hresult] at hend
    cases hend
  | cons c t =>
    have hc := ht 0 (Nat.succ_pos _)
    obtain ⟨hca,-⟩ := List.cons_prefix_cons.mp hpre
    rw [hresult,hca] at hc
    cases hc

def linesRun : List Act :=
  [.write (str "A=1\n"),.readOut (str "A=1\n"),.write (str "B=2\n"),.close,.readOut (str "B=2\n"),.hangup .out false]

theorem lines_captured : ∃ u, Runs.run (step 16) (start false) linesRun = some u ∧ Captured 16 u := by
  have hstays : ∀ a ∈ linesRun, Stays a := by simp [linesRun,Stays]
  obtain ⟨u,hu,hended,htotal⟩ : ∃ u, Runs.run (step 16) (start false) linesRun = some u ∧ u.ended.isSome ∧
      u.total = str "A=1\nB=2\n" := ⟨_,rfl,rfl,rfl⟩
  refine ⟨u,hu,(captured_iff (by decide) hu hended).mpr ⟨?_,?_,Or.inl hstays⟩⟩
  · simp [InOrder,linesRun,chunksOf,str]
  · rw [htotal]
    decide

end SpawnRead
end Udev
