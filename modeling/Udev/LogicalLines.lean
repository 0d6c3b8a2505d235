import Udev.Memory
import Udev.RulesFile

/-! The logical lines of a rules file: its lines joined at a backslash and newline. The loop of
`parse_file` reads pieces that fit its buffer, so what it passes to `add_rule` is compared here
with the logical lines, and the files for which every text is one of them are singled out. -/
namespace Udev
namespace Rules

open CString Text

def physical : List UInt8 → List UInt8 × List UInt8
  | [] => ([],[])
  | c::cs =>
    if c = chr '\n' then ([c],cs)
    else
      let r := physical cs
      (c::r.1,r.2)

theorem physical_append (s : List UInt8) : (physical s).1 ++ (physical s).2 = s := by
  induction s with
  | nil => rfl
  | cons c cs ih =>
    by_cases hc : c = chr '\n'
    · rw [physical,if_pos hc]
      rfl
    · rw [physical,if_neg hc]
      exact congrArg (c :: ·) ih

theorem physical_line {line : List UInt8} (h : chr '\n' ∉ line) (rest : List UInt8) :
    physical (line ++ chr '\n'::rest) = (line ++ [chr '\n'],rest) := by
  induction line with
  | nil => rfl
  | cons c line ih =>
    rw [List.mem_cons,not_or] at h
    rw [List.cons_append,physical,if_neg (Ne.symm h.1),ih h.2]
    rfl

theorem physical_ne_nil {s : List UInt8} (h : s ≠ []) : (physical s).1 ≠ [] := by
  cases s with
  | nil => exact absurd rfl h
  | cons c cs =>
    by_cases hc : c = chr '\n'
    · simp [physical,hc]
    · simp [physical,hc]

theorem physical_newline {s : List UInt8} (h : (physical s).2 ≠ []) :
    ∃ u, (physical s).1 = u ++ [chr '\n'] := by
  induction s with
  | nil => exact absurd rfl h
  | cons c cs ih =>
    by_cases hc : c = chr '\n'
    · exact ⟨[],by rw [physical,if_pos hc,hc]; rfl⟩
    · rw [physical,if_neg hc] at h ⊢
      obtain ⟨u,hu⟩ := ih h
      exact ⟨c::u,congrArg (c :: ·) hu⟩

theorem takeLine_physical (n : ℕ) (s : List UInt8) :
    takeLine n s = if (physical s).1.length ≤ n then physical s else (s.take n,s.drop n) := by
  induction n generalizing s with
  | zero =>
    cases s with
    | nil => rfl
    | cons c cs =>
      have hne : ¬(physical (c::cs)).1.length ≤ 0 := by
        simpa using physical_ne_nil (List.cons_ne_nil c cs)
      rw [if_neg hne]
      rfl
  | succ n ih =>
    cases s with
    | nil => rfl
    | cons c cs =>
      by_cases hc : c = chr '\n'
      · simp [takeLine,physical,hc]
      · rw [takeLine,if_neg hc,physical,if_neg hc,ih cs]
        by_cases hfit : (physical cs).1.length ≤ n
        · simp [hfit]
        · simp [hfit]

def continues (line : List UInt8) : Prop := [chr '\\',chr '\n'] <:+ line

instance (line : List UInt8) : Decidable (continues line) :=
  inferInstanceAs (Decidable ([chr '\\',chr '\n'] <:+ line))

/-- Join a line with the next ones as long as it ends with a backslash and newline and the
file goes on. -/
def joinLines : ℕ → List UInt8 → List UInt8 → List UInt8 × List UInt8
  | 0, line, rest => (line,rest)
  | n+1, line, rest =>
    if continues line ∧ rest ≠ [] then
      let next := physical rest
      let r := joinLines n next.1 next.2
      (line.take (line.length-2) ++ r.1,r.2)
    else (line,rest)

def logicalLine (s : List UInt8) : List UInt8 × List UInt8 :=
  joinLines ((physical s).2.length+1) (physical s).1 (physical s).2

def isComment (line : List UInt8) : Prop := charAt line (line.takeWhile isspace).length = chr '#'

instance (line : List UInt8) : Decidable (isComment line) := inferInstanceAs (Decidable (_ = _))

/-- What follows a line. A comment is a line of its own or, when `continued` is set, goes on at
a backslash and newline as other lines do. -/
def nextLine (continued : Bool) (s : List UInt8) : List UInt8 :=
  let line := (physical s).1
  if line.length < 3 ∨ isComment line ∧ continued = false then (physical s).2 else (logicalLine s).2

def startsFrom (continued : Bool) : ℕ → List UInt8 → List (List UInt8)
  | 0, _ => []
  | n+1, s => if s = [] then [] else s::startsFrom continued n (nextLine continued s)

def lineStarts (continued : Bool) (content : List UInt8) : List (List UInt8) :=
  startsFrom continued (content.length+1) content

/-- The text of a logical line without the white space that its first line starts with.
Comments, lines of fewer than three bytes and lines that do not fit have none. -/
def lineText (s : List UInt8) : Option CString :=
  let line := (physical s).1
  let text := (logicalLine s).1
  if isComment line ∨ line.length < 3 ∨ text.length+1 ≥ utilLineSize then none
  else some (text.drop (line.takeWhile isspace).length)

example : (lineStarts false (str "# a\nA \\\n B\nC\n")).filterMap lineText = [str "A  B\n"] := by
  decide +kernel

/-- One pass of the loop of `parse_file`: what it passes to `add_rule`, and where the file then
stands. -/
def linePass (s : List UInt8) : Option CString × List UInt8 :=
  match fgets utilLineSize s with
  | none => (none,[])
  | some (line,rest) =>
    let key := (line.takeWhile isspace).length
    if charAt line key = chr '#' then (none,rest)
    else if line.length < 3 then (none,rest)
    else
      let r := continueLine (rest.length+1) line line.length rest
      (if r.2.1+1 ≥ utilLineSize then none else some (r.1.drop key),r.2.2)

def readFrom : ℕ → List UInt8 → List (List UInt8)
  | 0, _ => []
  | n+1, s => if s = [] then [] else s::readFrom n (linePass s).2

def readStarts (content : List UInt8) : List (List UInt8) := readFrom (content.length+1) content

/-- The calls of `add_rule`, each with the place where its pass started. -/
def ruleCalls (content : List UInt8) : List (List UInt8 × CString) :=
  (readStarts content).filterMap fun s => (linePass s).1.map fun t => (s,t)

theorem ruleLines_readFrom (n : ℕ) (s : List UInt8) :
    ruleLines n s = (readFrom n s).filterMap fun s => (linePass s).1 := by
  induction n generalizing s with
  | zero => rfl
  | succ n ih =>
    by_cases hs : s = []
    · simp [ruleLines,readFrom,fgets,hs]
    · have hread : fgets utilLineSize s = some ((takeLine (utilLineSize-1) s).1.takeWhile (· ≠ 0),
          (takeLine (utilLineSize-1) s).2) := if_neg hs
      rw [readFrom,if_neg hs,List.filterMap_cons,ruleLines,linePass,hread]
      simp only [ih]
      split_ifs <;> rfl

theorem ruleCalls_texts (content : List UInt8) : (ruleCalls content).map (·.2) = fileLines content := by
  show (ruleCalls content).map (·.2) = ruleLines (content.length+1) content
  rw [ruleLines_readFrom,ruleCalls,List.map_filterMap]
  apply congrFun
  apply congrArg
  funext s
  cases (linePass s).1 <;> rfl

theorem continues_length {line : List UInt8} (h : continues line) : 2 ≤ line.length := h.length_le

theorem continues_iff {u : List UInt8} (h : u ≠ []) :
    continues (u ++ [chr '\n']) ↔ charAt (u ++ [chr '\n']) ((u ++ [chr '\n']).length-2) = chr '\\' := by
  obtain ⟨v,c,rfl⟩ := u.eq_nil_or_concat'.resolve_left h
  have hlast : charAt (v ++ [c] ++ [chr '\n']) ((v ++ [c] ++ [chr '\n']).length-2) = c := by simp [charAt]
  rw [hlast,List.append_assoc]
  constructor
  · rintro ⟨w,hw⟩
    have htail := List.append_inj_right' hw rfl
    exact (List.cons.inj htail).1.symm
  · rintro rfl
    exact List.suffix_append v _

theorem joinLines_next (n : ℕ) {line rest : List UInt8} (h : continues line ∧ rest ≠ []) :
    joinLines (n+1) line rest =
      (line.take (line.length-2) ++ (joinLines n (physical rest).1 (physical rest).2).1,
        (joinLines n (physical rest).1 (physical rest).2).2) := if_pos h

theorem joinLines_stop (n : ℕ) {line rest : List UInt8} (h : ¬(continues line ∧ rest ≠ [])) :
    joinLines n line rest = (line,rest) := by
  cases n with
  | zero => rfl
  | succ n => exact if_neg h

theorem joinLines_ne_nil (n : ℕ) {line : List UInt8} (h : line ≠ []) (rest : List UInt8) :
    (joinLines n line rest).1 ≠ [] := by
  induction n generalizing line rest with
  | zero => exact h
  | succ n ih =>
    by_cases hc : continues line ∧ rest ≠ []
    · rw [joinLines_next n hc]
      exact List.append_ne_nil_of_right_ne_nil _ (ih (physical_ne_nil hc.2) _)
    · rwa [joinLines_stop _ hc]

theorem joinLines_length (n : ℕ) (line rest : List UInt8) :
    line.length ≤ (joinLines n line rest).1.length+1 := by
  cases n with
  | zero => exact Nat.le_succ _
  | succ n =>
    by_cases hc : continues line ∧ rest ≠ []
    · have hnext := List.length_pos_iff.mpr (joinLines_ne_nil n (physical_ne_nil hc.2) (physical rest).2)
      rw [joinLines_next n hc]
      simp only [List.length_append,List.length_take]
      omega
    · rw [joinLines_stop _ hc]
      exact Nat.le_succ _

theorem joinLines_nul {n : ℕ} {line rest : List UInt8} (h : 0 ∉ (joinLines n line rest).1) : 0 ∉ line := by
  cases n with
  | zero => exact h
  | succ n =>
    by_cases hc : continues line ∧ rest ≠ []
    · rw [joinLines_next n hc,List.mem_append,not_or] at h
      obtain ⟨u,rfl⟩ := hc.1
      have hu : 0 ∉ u := by simpa using h.1
      rw [List.mem_append,not_or]
      exact ⟨hu,by decide⟩
    · rwa [joinLines_stop _ hc] at h

theorem takeLine_cut {n : ℕ} {s : List UInt8} (h : n < (physical s).1.length) :
    (takeLine n s).1.length = n := by
  have hs := congrArg List.length (physical_append s)
  rw [List.length_append] at hs
  rw [takeLine_physical,if_neg (Nat.not_le_of_lt h)]
  exact List.length_take_of_le (by omega)

theorem takeLine_length (n : ℕ) (s : List UInt8) :
    (takeLine n s).1.length ≤ n ∧ (takeLine n s).1.length ≤ (physical s).1.length := by
  by_cases h : (physical s).1.length ≤ n
  · rw [takeLine_physical,if_pos h]
    exact ⟨h,le_rfl⟩
  · rw [takeLine_cut (Nat.lt_of_not_le h)]
    exact ⟨le_rfl,(Nat.lt_of_not_le h).le⟩

theorem takeLine_nul {n : ℕ} {s : List UInt8} (h : 0 ∉ (physical s).1) :
    (takeLine n s).1.takeWhile (· ≠ 0) = (takeLine n s).1 := by
  refine List.takeWhile_eq_self_iff.mpr fun c hc => decide_eq_true fun h0 => h ?_
  subst h0
  rw [takeLine_physical] at hc
  by_cases hfit : (physical s).1.length ≤ n
  · rwa [if_pos hfit] at hc
  · rw [if_neg hfit] at hc
    have hpiece : s.take n <+: (physical s).1 :=
      List.prefix_of_prefix_length_le (List.take_prefix _ _) ⟨_,physical_append s⟩
        (by simp only [List.length_take]; omega)
    exact hpiece.subset hc

/-- What `fgets` reads of a line without NUL bytes: the line, or a piece that fills the room. -/
theorem fgets_physical {n : ℕ} {s : List UInt8} (hs : s ≠ []) (h : 0 ∉ (physical s).1) :
    fgets (n+1) s = some (takeLine n s) := by
  rw [fgets,if_neg hs]
  simp only [Nat.add_sub_cancel,takeLine_nul h]

theorem fgets_eq_some {n : ℕ} {s line rest : List UInt8} (h : fgets n s = some (line,rest)) :
    s ≠ [] ∧ (takeLine (n-1) s).1.takeWhile (· ≠ 0) = line ∧ (takeLine (n-1) s).2 = rest := by
  by_cases hs : s = []
  · rw [fgets,if_pos hs] at h
    cases h
  · rw [fgets,if_neg hs] at h
    exact ⟨hs,Prod.mk.inj (Option.some.inj h)⟩

theorem fgets_length {n : ℕ} {s line rest : List UInt8} (h : fgets (n+1) s = some (line,rest)) :
    line.length ≤ n := by
  obtain ⟨-,rfl,-⟩ := fgets_eq_some h
  exact (List.takeWhile_prefix _).length_le.trans (takeLine_length n s).1

theorem fgets_nul {n : ℕ} {s line rest : List UInt8} (h : fgets n s = some (line,rest)) : 0 ∉ line := by
  obtain ⟨-,rfl,-⟩ := fgets_eq_some h
  intro h0
  have hne := List.mem_takeWhile_imp h0
  simp at hne

theorem fgets_rest {n : ℕ} {s line rest : List UInt8} (h : fgets (n+2) s = some (line,rest)) :
    rest.length < s.length := by
  obtain ⟨hs,-,rfl⟩ := fgets_eq_some h
  show (takeLine (n+1) s).2.length < s.length
  have hwhole := congrArg List.length (physical_append s)
  have hline := List.length_pos_iff.mpr (physical_ne_nil hs)
  rw [List.length_append] at hwhole
  rw [takeLine_physical]
  by_cases hfit : (physical s).1.length ≤ n+1
  · rw [if_pos hfit]
    omega
  · rw [if_neg hfit,List.length_drop]
    omega

/-- The loop stops at the end of the file, and at a line without a backslash before its end. -/
theorem continueLine_stop (n : ℕ) {line : CString} {len : ℕ} {rest : List UInt8}
    (h : charAt line (len-2) ≠ chr '\\' ∨ rest = []) : continueLine n line len rest = (line,len,rest) := by
  cases n with
  | zero => rfl
  | succ n =>
    rw [continueLine]
    by_cases hc : charAt line (len-2) ≠ chr '\\'
    · exact if_pos hc
    · rw [if_neg hc,h.resolve_left hc]
      rfl

theorem continueLine_next {line : CString} {len : ℕ} {rest : List UInt8} {next : CString × List UInt8}
    (hc : charAt line (len-2) = chr '\\') (hread : fgets (utilLineSize-len+2) rest = some next) (n : ℕ) :
    continueLine (n+1) line len rest =
      if next.1.length < 2 then (line.take (len-2) ++ next.1,len,next.2)
      else continueLine n (line.take (len-2) ++ next.1) (line.take (len-2) ++ next.1).length next.2 := by
  rw [continueLine,if_neg (not_not_intro hc),hread]

/-- What holds of the line, its length and the rest of the file holds at the end of the loop when
each line that is read keeps it. -/
theorem continueLine_invariant {P : CString → ℕ → List UInt8 → Prop}
    (hnext : ∀ line len rest next, fgets (utilLineSize-len+2) rest = some next → P line len rest →
      P (line.take (len-2) ++ next.1)
        (if next.1.length < 2 then len else (line.take (len-2) ++ next.1).length) next.2)
    (n : ℕ) {line : CString} {len : ℕ} {rest : List UInt8} (h : P line len rest) :
    P (continueLine n line len rest).1 (continueLine n line len rest).2.1
      (continueLine n line len rest).2.2 := by
  induction n generalizing line len rest with
  | zero => exact h
  | succ n ih =>
    by_cases hstop : charAt line (len-2) ≠ chr '\\' ∨ rest = []
    · rwa [continueLine_stop _ hstop]
    rw [not_or,not_not] at hstop
    have hread : fgets (utilLineSize-len+2) rest = some _ := if_neg hstop.2
    have hkept := hnext line len rest _ hread h
    rw [continueLine_next hstop.1 hread]
    by_cases hshort : ((takeLine (utilLineSize-len+2-1) rest).1.takeWhile (· ≠ 0)).length < 2
    · rw [if_pos hshort] at hkept ⊢
      exact hkept
    · rw [if_neg hshort] at hkept ⊢
      exact ih hkept

/-- A full buffer stays full: its length is not counted again, or two bytes are replaced by two. -/
theorem continueLine_full (n : ℕ) {line : CString} (h : line.length = utilLineSize-1) (rest : List UInt8) :
    (continueLine n line line.length rest).2.1 = utilLineSize-1 := by
  have hsize : utilLineSize = 16384 := rfl
  have hkept : (continueLine n line line.length rest).2.1 = utilLineSize-1 ∧
      (continueLine n line line.length rest).2.1 ≤ (continueLine n line line.length rest).1.length+2 := by
    apply continueLine_invariant (P := fun line len _ => len = utilLineSize-1 ∧ len ≤ line.length+2)
    · intro line len rest next hread hfull
      have hnext := fgets_length hread
      simp only [List.length_append,List.length_take]
      split_ifs <;> omega
    · exact ⟨h,Nat.le_add_right _ _⟩
  exact hkept.1

/-- Where the loop goes on behind a full buffer, from the last two bytes of that on: behind pairs of bytes, as
long as the one before starts with a backslash. -/
def behindFull : List UInt8 → List UInt8
  | x::_::a::b::rest =>
    if x ≠ chr '\\' then a::b::rest
    else if a = chr '\n' then b::rest
    else if a = 0 ∨ b = 0 then rest
    else behindFull (a::b::rest)
  | [x,_,a] => if x ≠ chr '\\' then [a] else []
  | _ => []

theorem takeLine_pair (a b : UInt8) (rest : List UInt8) :
    takeLine 2 (a::b::rest) = if a = chr '\n' then ([a],b::rest) else ([a,b],rest) := by
  simp only [takeLine]
  split_ifs <;> rfl

theorem continueLine_pairs {n : ℕ} {kept : CString} (hkept : kept.length = utilLineSize-3) {x y : UInt8}
    {rest : List UInt8} (hn : rest.length < n) :
    (continueLine n (kept ++ [x,y]) (kept ++ [x,y]).length rest).2.2 = behindFull (x::y::rest) := by
  have hsize : utilLineSize = 16384 := rfl
  induction n generalizing x y rest with
  | zero => exact absurd hn (Nat.not_lt_zero _)
  | succ n ih =>
    have hroom : utilLineSize-(kept ++ [x,y]).length+2 = 3 := by
      rw [List.length_append,List.length_cons,List.length_singleton]
      omega
    have hchar : charAt (kept ++ [x,y]) ((kept ++ [x,y]).length-2) = x := by simp [charAt]
    have htake : (kept ++ [x,y]).take ((kept ++ [x,y]).length-2) = kept := by simp
    by_cases hx : x = chr '\\'
    · have hread : ∀ {u : List UInt8} {r : List UInt8 × List UInt8}, u ≠ [] → takeLine 2 u = r →
          fgets (utilLineSize-(kept ++ [x,y]).length+2) u = some (r.1.takeWhile (· ≠ 0),r.2) := by
        rintro u r hu rfl
        rw [hroom]
        exact if_neg hu
      have hchar := hchar.trans hx
      rcases rest with - | ⟨a,- | ⟨b,rest⟩⟩
      · rw [continueLine_stop _ (Or.inr rfl)]
        rfl
      · have hone : takeLine 2 [a] = ([a],[]) := by
          simp only [takeLine]
          exact ite_self _
        have hshort : ([a].takeWhile (· ≠ 0)).length < 2 :=
          Nat.lt_succ_of_le (List.takeWhile_prefix (l := [a]) _).length_le
        rw [continueLine_next hchar (hread (List.cons_ne_nil _ _) hone),if_pos hshort,behindFull,
          if_neg (not_not_intro hx)]
      · have hpair := takeLine_pair a b rest
        rw [behindFull,if_neg (not_not_intro hx)]
        by_cases ha : a = chr '\n'
        · have hshort : ([a].takeWhile (· ≠ 0)).length < 2 :=
            Nat.lt_succ_of_le (List.takeWhile_prefix (l := [a]) _).length_le
          rw [if_pos ha] at hpair
          rw [continueLine_next hchar (hread (List.cons_ne_nil _ _) hpair),if_pos hshort,if_pos ha]
        · rw [if_neg ha] at hpair
          rw [continueLine_next hchar (hread (List.cons_ne_nil _ _) hpair),if_neg ha,htake]
          by_cases hnul : a = 0 ∨ b = 0
          · have hshort : ([a,b].takeWhile (· ≠ 0)).length < 2 := by
              rcases hnul with rfl | rfl
              · simp
              · by_cases ha0 : a = 0 <;> simp [ha0]
            rw [if_pos hshort,if_pos hnul]
          · have hall : [a,b].takeWhile (· ≠ 0) = [a,b] := by
              obtain ⟨ha0,hb0⟩ := not_or.mp hnul
              simp [ha0,hb0]
            rw [hall,if_neg (by simp),if_neg hnul]
            exact ih (Nat.lt_of_succ_lt_succ (Nat.lt_of_succ_lt hn))
    · rw [continueLine_stop _ (Or.inl (by rwa [hchar]))]
      rcases rest with - | ⟨a,- | ⟨b,rest⟩⟩ <;> simp [behindFull,hx]

theorem continueLine_behind {n : ℕ} {line : CString} (hlen : line.length = utilLineSize-1) {rest : List UInt8}
    (hn : rest.length < n) :
    (continueLine n line line.length rest).2.2 = behindFull (line.drop (utilLineSize-3) ++ rest) := by
  have hsize : utilLineSize = 16384 := rfl
  obtain ⟨x,y,hxy⟩ := List.length_eq_two.mp (show (line.drop (utilLineSize-3)).length = 2 by
    rw [List.length_drop]
    omega)
  have hkept : (line.take (utilLineSize-3)).length = utilLineSize-3 := List.length_take_of_le (by omega)
  have hline : line.take (utilLineSize-3) ++ [x,y] = line := by rw [← hxy,List.take_append_drop]
  have hpairs := continueLine_pairs hkept (x := x) (y := y) hn
  rw [hline] at hpairs
  rw [hpairs,hxy]
  rfl

/-- Where reading goes on when the lines from a place on fill the buffer, which has `kept` bytes of the ones
before: behind the bytes that fill it. -/
def fillLines : ℕ → ℕ → List UInt8 → Option (List UInt8)
  | 0, _, _ => none
  | n+1, kept, s =>
    if utilLineSize ≤ kept+(physical s).1.length+1 then some (behindFull (s.drop (utilLineSize-3-kept)))
    else if continues (physical s).1 ∧ (physical s).2 ≠ [] then
      fillLines n (kept+((physical s).1.length-2)) (physical s).2
    else none

/-- Where reading goes on when the logical line at a place fills the buffer. -/
def overflow (s : List UInt8) : Option (List UInt8) := fillLines ((physical s).2.length+2) 0 s

/-- What the joining loop leaves: a full buffer, or the text itself. -/
inductive Joined (text rest : List UInt8) : Option (List UInt8) → CString × ℕ × List UInt8 → Prop
  | full (line : CString) (e : List UInt8) : Joined text rest (some e) (line,utilLineSize-1,e)
  | whole {len : ℕ} : text.length ≤ len → len+1 < utilLineSize → Joined text rest none (text,len,rest)

/-- The room that the buffer has for a next line, which replaces the last two bytes of `len`. -/
def room (len : ℕ) : ℕ := utilLineSize-len+1

theorem takeLine_append (n : ℕ) (s : List UInt8) : (takeLine n s).1 ++ (takeLine n s).2 = s := by
  rw [takeLine_physical]
  split_ifs
  · exact physical_append s
  · exact List.take_append_drop n s

theorem piece_length {n : ℕ} {s : List UInt8} (h : n ≤ (physical s).1.length) : (takeLine n s).1.length = n := by
  rcases Nat.eq_or_lt_of_le h with heq | hlt
  · rw [takeLine_physical,if_pos heq.ge,heq]
  · exact takeLine_cut hlt

theorem continueLine_fills {n : ℕ} {kept s : List UInt8} (hkept : kept.length+3 < utilLineSize)
    (hfull : utilLineSize ≤ kept.length+(physical s).1.length+1)
    (hn : (takeLine (utilLineSize-1-kept.length) s).2.length < n) :
    ∃ line, continueLine n (kept ++ (takeLine (utilLineSize-1-kept.length) s).1)
      (kept ++ (takeLine (utilLineSize-1-kept.length) s).1).length (takeLine (utilLineSize-1-kept.length) s).2 =
        (line,utilLineSize-1,behindFull (s.drop (utilLineSize-3-kept.length))) := by
  have hpiece := piece_length (n := utilLineSize-1-kept.length) (s := s) (by omega)
  have hwhole := takeLine_append (utilLineSize-1-kept.length) s
  generalize (takeLine (utilLineSize-1-kept.length) s).1 = piece at *
  generalize (takeLine (utilLineSize-1-kept.length) s).2 = rest at *
  have hlen : (kept ++ piece).length = utilLineSize-1 := by
    rw [List.length_append,hpiece]
    omega
  have hdrop : (kept ++ piece).drop (utilLineSize-3) ++ rest = s.drop (utilLineSize-3-kept.length) := by
    have hnone : kept.drop (utilLineSize-3) = [] := List.drop_eq_nil_of_le (by omega)
    rw [List.drop_append,hnone,List.nil_append,← List.drop_append_of_le_length (by omega),hwhole]
  have hbehind := continueLine_behind hlen hn
  rw [hdrop] at hbehind
  exact ⟨_,Prod.ext rfl (Prod.ext (continueLine_full n hlen rest) hbehind)⟩

/-- One more line in the buffer. A piece that is cut fills the buffer, and a line of one byte is the last one. -/
theorem joined_next {n len : ℕ} {kept rest : List UInt8} (hkept : kept.length+2 = len)
    (hfit : len+1 < utilLineSize) (hn : rest.length < n+1)
    (ih : 2 ≤ (physical rest).1.length → (kept ++ (physical rest).1).length+1 < utilLineSize →
      Joined (kept ++ (joinLines n (physical rest).1 (physical rest).2).1)
        (joinLines n (physical rest).1 (physical rest).2).2
        (if continues (physical rest).1 ∧ (physical rest).2 ≠ [] then
          fillLines n (kept.length+((physical rest).1.length-2)) (physical rest).2
        else none)
        (continueLine n (kept ++ (physical rest).1) (kept ++ (physical rest).1).length (physical rest).2)) :
    Joined (kept ++ (joinLines n (physical rest).1 (physical rest).2).1)
      (joinLines n (physical rest).1 (physical rest).2).2 (fillLines (n+1) kept.length rest)
      (if (takeLine (room len) rest).1.length < 2 then
        (kept ++ (takeLine (room len) rest).1,len,(takeLine (room len) rest).2)
      else continueLine n (kept ++ (takeLine (room len) rest).1)
        (kept ++ (takeLine (room len) rest).1).length (takeLine (room len) rest).2) := by
  have hroom : room len = utilLineSize-1-kept.length := by
    unfold room
    omega
  rw [fillLines]
  by_cases hfull : utilLineSize ≤ kept.length+(physical rest).1.length+1
  · have hpiece := piece_length (n := utilLineSize-1-kept.length) (s := rest) (by omega)
    have hwhole := congrArg List.length (takeLine_append (utilLineSize-1-kept.length) rest)
    rw [List.length_append] at hwhole
    obtain ⟨line,hline⟩ := continueLine_fills (n := n) (by omega) hfull (by omega)
    rw [if_pos hfull,hroom,if_neg (by omega),hline]
    exact .full _ _
  · have hcut : (physical rest).1.length ≤ room len := by omega
    rw [if_neg hfull,takeLine_physical,if_pos hcut]
    by_cases hshort : (physical rest).1.length < 2
    · have hlast : ¬(continues (physical rest).1 ∧ (physical rest).2 ≠ []) :=
        fun h => Nat.not_le_of_lt hshort (continues_length h.1)
      rw [if_pos hshort,if_neg hlast,joinLines_stop n hlast]
      refine .whole ?_ hfit
      show (kept ++ (physical rest).1).length ≤ len
      rw [List.length_append]
      omega
    · rw [if_neg hshort]
      exact ih (Nat.le_of_not_lt hshort) (by rw [List.length_append]; omega)

/-- The joining loop over a text in the buffer and the line at its end. -/
theorem continueLine_joined {n : ℕ} (acc : List UInt8) {line rest : List UInt8} (hn : rest.length < n)
    (hline : 2 ≤ line.length) (hfit : (acc ++ line).length+1 < utilLineSize)
    (hend : rest ≠ [] → ∃ u, line = u ++ [chr '\n']) (hnul : 0 ∉ (joinLines n line rest).1) :
    Joined (acc ++ (joinLines n line rest).1) (joinLines n line rest).2
      (if continues line ∧ rest ≠ [] then fillLines n (acc.length+(line.length-2)) rest else none)
      (continueLine n (acc ++ line) (acc ++ line).length rest) := by
  induction n generalizing acc line rest with
  | zero => exact absurd hn (Nat.not_lt_zero _)
  | succ n ih =>
    have hlen : (acc ++ line).length-2 = acc.length+(line.length-2) := by
      rw [List.length_append]
      omega
    have hchar : charAt (acc ++ line) ((acc ++ line).length-2) = charAt line (line.length-2) := by
      rw [hlen]
      simp [charAt,List.getElem?_append_right]
    have htake : (acc ++ line).take ((acc ++ line).length-2) = acc ++ line.take (line.length-2) := by
      rw [hlen]
      simp [List.take_append]
    by_cases hc : continues line ∧ rest ≠ []
    · obtain ⟨u,rfl⟩ := hend hc.2
      have hlast := (continues_iff (by rintro rfl; simp at hline)).mp hc.1
      rw [if_pos hc]
      rw [joinLines_next n hc] at hnul ⊢
      rw [List.mem_append,not_or] at hnul
      have hread := fgets_physical (n := room (acc ++ (u ++ [chr '\n'])).length) hc.2 (joinLines_nul hnul.2)
      rw [continueLine_next (hchar.trans hlast) hread,htake,← List.append_assoc acc]
      have hlong : 2 ≤ (acc ++ (u ++ [chr '\n'])).length := by
        rw [List.length_append]
        exact hline.trans (Nat.le_add_left _ _)
      have hkept : (acc ++ (u ++ [chr '\n']).take ((u ++ [chr '\n']).length-2)).length =
          acc.length+((u ++ [chr '\n']).length-2) := by
        rw [← htake,List.length_take,hlen]
        omega
      rw [← hkept]
      apply joined_next
      · rw [← htake,List.length_take]
        omega
      · exact hfit
      · exact hn
      · intro htwo hnext
        have hshorter := congrArg List.length (physical_append rest)
        rw [List.length_append] at hshorter
        exact ih _ (by omega) htwo hnext physical_newline hnul.2
    · have hstop : charAt line (line.length-2) ≠ chr '\\' ∨ rest = [] := by
        by_contra hno
        rw [not_or,not_not] at hno
        obtain ⟨u,rfl⟩ := hend hno.2
        exact hc ⟨(continues_iff (by rintro rfl; simp at hline)).mpr hno.1,hno.2⟩
      rw [if_neg hc,joinLines_stop _ hc,continueLine_stop _ (hstop.imp_left (hchar ▸ ·))]
      exact .whole le_rfl hfit

theorem linePass_read {s : List UInt8} {r : CString × List UInt8} (h : fgets utilLineSize s = some r) :
    linePass s =
      if isComment r.1 then (none,r.2)
      else if r.1.length < 3 then (none,r.2)
      else
        let joined := continueLine (r.2.length+1) r.1 r.1.length r.2
        (if joined.2.1+1 ≥ utilLineSize then none
          else some (joined.1.drop (r.1.takeWhile isspace).length),joined.2.2) := by
  rw [linePass,h]
  rfl

def pieceRest (s : List UInt8) : List UInt8 := (takeLine (utilLineSize-1) s).2

/-- The line is neither a comment nor shorter than three bytes, and its logical line has no NUL byte. -/
structure IsRule (s : List UInt8) : Prop where
  comment : ¬isComment (physical s).1
  long : 3 ≤ (physical s).1.length
  nul : 0 ∉ (logicalLine s).1

theorem isComment_iff {line : List UInt8} :
    isComment line ↔ ∃ blank text, line = blank ++ chr '#'::text ∧ ∀ c ∈ blank, isspace c = true := by
  constructor
  · intro h
    have hsplit := List.takeWhile_append_dropWhile (p := isspace) (l := line)
    have hchar : charAt (line.takeWhile isspace ++ line.dropWhile isspace) (line.takeWhile isspace).length = chr '#' := by
      rwa [hsplit]
    cases hrest : line.dropWhile isspace with
    | nil =>
      rw [hrest] at hchar
      simp [charAt] at hchar
      exact absurd hchar (by decide)
    | cons c text =>
      rw [hrest] at hchar hsplit
      have hc : c = chr '#' := by simpa [charAt] using hchar
      exact ⟨_,text,by rw [← hc,hsplit],fun x hx => List.mem_takeWhile_imp hx⟩
  · rintro ⟨blank,text,rfl,hblank⟩
    have htake : (blank ++ chr '#'::text).takeWhile isspace = blank := by
      rw [List.takeWhile_append_of_pos hblank,List.takeWhile_cons_of_neg (by decide),List.append_nil]
    rw [isComment,htake]
    simp [charAt]

theorem takeLine_prefix (n : ℕ) (s : List UInt8) : (takeLine n s).1 <+: (physical s).1 :=
  List.prefix_of_prefix_length_le ⟨_,takeLine_append n s⟩ ⟨_,physical_append s⟩ (takeLine_length n s).2

theorem isspace_ne_zero {c : UInt8} (h : isspace c = true) : c ≠ 0 := by
  rintro rfl
  exact absurd h (by decide)

/-- A comment is skipped, and so is a piece of one that has blanks only, which fills the buffer. -/
theorem linePass_comment {s : List UInt8} (h : isComment (physical s).1) : linePass s = (none,pieceRest s) := by
  have hsize : utilLineSize = 16384 := rfl
  obtain ⟨blank,text,hline,hblank⟩ := isComment_iff.mp h
  have hs : s ≠ [] := by
    rintro rfl
    simp [physical] at hline
  have hread : fgets utilLineSize s = some _ := if_neg hs
  have hprefix := takeLine_prefix (utilLineSize-1) s
  rw [linePass_read hread]
  by_cases hcomment : isComment ((takeLine (utilLineSize-1) s).1.takeWhile (· ≠ 0))
  · exact if_pos hcomment
  have hblanks : (takeLine (utilLineSize-1) s).1 <+: blank := by
    refine List.prefix_of_prefix_length_le hprefix (hline ▸ List.prefix_append _ _) (by_contra fun hno => hcomment ?_)
    have hmark : blank ++ [chr '#'] <+: (takeLine (utilLineSize-1) s).1 := by
      refine List.prefix_of_prefix_length_le ⟨text,?_⟩ hprefix ?_
      · rw [hline,List.append_assoc]
        rfl
      · rw [List.length_append,List.length_singleton]
        omega
    obtain ⟨rest,hrest⟩ := hmark
    have hplain : ∀ c ∈ blank ++ [chr '#'], decide (c ≠ 0) = true := by
      intro c hc
      rcases List.mem_append.mp hc with hc | hc
      · exact decide_eq_true (isspace_ne_zero (hblank c hc))
      · rw [List.mem_singleton.mp hc]
        decide
    refine isComment_iff.mpr ⟨blank,rest.takeWhile (· ≠ 0),?_,hblank⟩
    rw [← hrest,List.takeWhile_append_of_pos hplain,List.append_assoc]
    rfl
  have hcut : (takeLine (utilLineSize-1) s).1.length = utilLineSize-1 := by
    refine piece_length (by_contra fun hno => ?_)
    have hlen := hblanks.length_le
    rw [takeLine_physical,if_pos (by omega),hline,List.length_append,List.length_cons] at hlen
    omega
  have hspace : ∀ c ∈ (takeLine (utilLineSize-1) s).1, isspace c = true := fun c hc => hblank c (hblanks.subset hc)
  have hall : (takeLine (utilLineSize-1) s).1.takeWhile (· ≠ 0) = (takeLine (utilLineSize-1) s).1 :=
    List.takeWhile_eq_self_iff.mpr fun c hc => decide_eq_true (isspace_ne_zero (hspace c hc))
  have hstop : charAt (takeLine (utilLineSize-1) s).1 ((takeLine (utilLineSize-1) s).1.length-2) ≠ chr '\\' := by
    have hlt : (takeLine (utilLineSize-1) s).1.length-2 < (takeLine (utilLineSize-1) s).1.length := by omega
    intro heq
    exact absurd (heq ▸ hspace _ (Memory.charAt_mem hlt)) (by decide)
  have hlong : ¬(takeLine (utilLineSize-1) s).1.length < 3 := by omega
  rw [hall] at hcomment ⊢
  rw [if_neg hcomment,if_neg hlong,continueLine_stop _ (Or.inl hstop),hcut]
  rfl

theorem linePass_short {s : List UInt8} (hs : s ≠ []) (h : ((physical s).1.takeWhile (· ≠ 0)).length < 3) :
    linePass s = (none,pieceRest s) := by
  have hread : fgets utilLineSize s = some _ := if_neg hs
  have hshort : ((takeLine (utilLineSize-1) s).1.takeWhile (· ≠ 0)).length < 3 := by
    obtain ⟨rest,hrest⟩ := takeLine_prefix (utilLineSize-1) s
    rw [← hrest,List.takeWhile_append] at h
    split_ifs at h with hall
    · rw [List.length_append] at h
      omega
    · exact h
  rw [linePass_read hread,if_pos hshort]
  exact ite_self _

/-- A pass over a rule that fills the buffer passes nothing on; any other one passes its text on. -/
theorem linePass_rule {s : List UInt8} (h : IsRule s) :
    linePass s = (overflow s).elim (lineText s,(logicalLine s).2) (none,·) ∧
      (overflow s = none → (lineText s).isSome) := by
  have hsize : utilLineSize = 16384 := rfl
  have hs : s ≠ [] := by
    rintro rfl
    exact absurd h.long (by decide)
  have hread : fgets utilLineSize s = some (takeLine (utilLineSize-1) s) := fgets_physical hs (joinLines_nul h.nul)
  have hcomment : ¬isComment (takeLine (utilLineSize-1) s).1 := by
    intro hpiece
    obtain ⟨rest,hrest⟩ := takeLine_prefix (utilLineSize-1) s
    obtain ⟨blank,text,htext,hblank⟩ := isComment_iff.mp hpiece
    refine h.comment (isComment_iff.mpr ⟨blank,text ++ rest,?_,hblank⟩)
    rw [← hrest,htext,List.append_assoc,List.cons_append]
  have hlong := h.long
  rw [linePass_read hread,if_neg hcomment]
  by_cases hfull : utilLineSize ≤ (physical s).1.length+1
  · have hover : overflow s = some (behindFull (s.drop (utilLineSize-3))) := by
      rw [overflow,fillLines,Nat.zero_add,if_pos hfull]
      rfl
    have hpiece := piece_length (n := utilLineSize-1) (s := s) (by omega)
    obtain ⟨line,hline⟩ := @continueLine_fills ((pieceRest s).length+1) [] s (by decide)
      (by simpa using hfull) (Nat.lt_succ_self _)
    have hjoined : continueLine ((takeLine (utilLineSize-1) s).2.length+1) (takeLine (utilLineSize-1) s).1
        (takeLine (utilLineSize-1) s).1.length (takeLine (utilLineSize-1) s).2 =
          (line,utilLineSize-1,behindFull (s.drop (utilLineSize-3))) := hline
    rw [if_neg (by omega),hjoined,hover]
    exact ⟨rfl,fun hno => nomatch hno⟩
  · have hfits : takeLine (utilLineSize-1) s = physical s := by
      rw [takeLine_physical,if_pos (by omega)]
    have hjoined := continueLine_joined (n := (physical s).2.length+1) [] (Nat.lt_succ_self _)
      (Nat.le_of_succ_le hlong) (by simpa using hfull) physical_newline h.nul
    have hover : overflow s = if continues (physical s).1 ∧ (physical s).2 ≠ [] then
        fillLines ((physical s).2.length+1) (([] : List UInt8).length+((physical s).1.length-2)) (physical s).2
        else none := by
      rw [overflow,fillLines,Nat.zero_add,if_neg hfull]
      rfl
    rw [← hover] at hjoined
    rw [hfits,if_neg (Nat.not_lt_of_le hlong)]
    simp only [List.nil_append] at hjoined ⊢
    generalize continueLine _ (physical s).1 (physical s).1.length (physical s).2 = r at *
    generalize overflow s = e at *
    cases hjoined with
    | full line e => exact ⟨rfl,fun hno => nomatch hno⟩
    | whole hlen hroom =>
      have htext : lineText s = some ((logicalLine s).1.drop ((physical s).1.takeWhile isspace).length) :=
        if_neg (not_or.mpr ⟨h.comment,by unfold logicalLine; omega⟩)
      rw [htext,if_neg (Nat.not_le_of_lt hroom)]
      exact ⟨rfl,fun _ => rfl⟩

theorem takeLine_suffix (n : ℕ) (s : List UInt8) : (takeLine n s).2 <:+ s := ⟨_,takeLine_append n s⟩

theorem linePass_rest {s : List UInt8} (hs : s ≠ []) : (linePass s).2 <:+ s ∧ (linePass s).2.length < s.length := by
  have hread : fgets utilLineSize s = some _ := if_neg hs
  have hsuffix := takeLine_suffix (utilLineSize-1) s
  have hless : (takeLine (utilLineSize-1) s).2.length < s.length := fgets_rest hread
  rw [linePass_read hread]
  split_ifs
  · exact ⟨hsuffix,hless⟩
  · exact ⟨hsuffix,hless⟩
  · have hjoined : ∀ n (line : CString), (continueLine n line line.length (takeLine (utilLineSize-1) s).2).2.2 <:+
        (takeLine (utilLineSize-1) s).2 := by
      intro n line
      refine continueLine_invariant (P := fun _ _ r => r <:+ _) ?_ n (List.suffix_refl _)
      intro line len rest next hnext h
      obtain ⟨-,-,hrest⟩ := fgets_eq_some hnext
      exact (hrest ▸ takeLine_suffix _ rest).trans h
    exact ⟨(hjoined _ _).trans hsuffix,(hjoined _ _).length_le.trans_lt hless⟩

theorem readFrom_length {n : ℕ} {s u : List UInt8} (h : u ∈ readFrom n s) : u.length ≤ s.length := by
  induction n generalizing s with
  | zero => cases h
  | succ n ih =>
    by_cases hs : s = []
    · rw [readFrom,if_pos hs] at h
      cases h
    · rw [readFrom,if_neg hs] at h
      rcases List.mem_cons.mp h with rfl | hu
      · exact le_rfl
      · exact (ih hu).trans (linePass_rest hs).2.le

theorem readFrom_nodup (n : ℕ) (s : List UInt8) : (readFrom n s).Nodup := by
  induction n generalizing s with
  | zero => exact List.nodup_nil
  | succ n ih =>
    by_cases hs : s = []
    · rw [readFrom,if_pos hs]
      exact List.nodup_nil
    · rw [readFrom,if_neg hs]
      apply List.nodup_cons.mpr
      constructor
      · intro hmem
        exact absurd (linePass_rest hs).2 (Nat.not_lt_of_le (readFrom_length hmem))
      · exact ih _

theorem mem_ruleCalls {content s : List UInt8} {t : CString} :
    (s,t) ∈ ruleCalls content ↔ s ∈ readStarts content ∧ (linePass s).1 = some t := by
  simp only [ruleCalls,List.mem_filterMap,Option.map_eq_some_iff,Prod.mk.injEq]
  constructor
  · rintro ⟨s',hmem,t',ht,rfl,rfl⟩
    exact ⟨hmem,ht⟩
  · rintro ⟨hmem,ht⟩
    exact ⟨s,hmem,t,ht,rfl,rfl⟩

theorem ruleCalls_nodup (content : List UInt8) : ((ruleCalls content).map (·.1)).Nodup := by
  have hplaces : (ruleCalls content).map (·.1) =
      (readStarts content).filter fun s => (linePass s).1.isSome := by
    rw [ruleCalls,List.map_filterMap,← List.filterMap_eq_filter]
    apply congrFun
    apply congrArg
    funext s
    cases h : (linePass s).1 <;> simp [Option.guard,h]
  rw [hplaces]
  exact (readFrom_nodup _ _).filter _

/-- `add_rule` is called at most once for a logical line, with its text, and for nothing else. -/
structure LogicalLines (continued : Bool) (content : List UInt8) : Prop where
  once : ((ruleCalls content).map (·.1)).Nodup
  text : ∀ c ∈ ruleCalls content, c.1 ∈ lineStarts continued content ∧ lineText c.1 = some c.2

/-- From a place of the file on there are comments, lines of fewer than three bytes, text that fills the buffer,
and logical lines that fit, these only where a logical line starts. What is behind the bytes that fill the
buffer is such a place again. -/
inductive Harmless (starts : List (List UInt8)) : List UInt8 → Prop
  | done : Harmless starts []
  | comment {s : List UInt8} : isComment (physical s).1 → Harmless starts (pieceRest s) → Harmless starts s
  | short {s : List UInt8} : ((physical s).1.takeWhile (· ≠ 0)).length < 3 → Harmless starts (pieceRest s) →
      Harmless starts s
  | overlong {s rest : List UInt8} : IsRule s → overflow s = some rest → Harmless starts rest → Harmless starts s
  | rule {s : List UInt8} : IsRule s → overflow s = none → s ∈ starts → Harmless starts (logicalLine s).2 →
      Harmless starts s

theorem Harmless.calls {starts : List (List UInt8)} {s : List UInt8} (h : Harmless starts s) (n : ℕ) :
    ∀ u ∈ readFrom n s, ∀ t, (linePass u).1 = some t → u ∈ starts ∧ lineText u = some t := by
  have hstep : ∀ {s rest : List UInt8} {r : Option CString}, linePass s = (r,rest) →
      (∀ n, ∀ u ∈ readFrom n rest, ∀ t, (linePass u).1 = some t → u ∈ starts ∧ lineText u = some t) →
      (∀ t, r = some t → s ∈ starts ∧ lineText s = some t) →
      ∀ n, ∀ u ∈ readFrom n s, ∀ t, (linePass u).1 = some t → u ∈ starts ∧ lineText u = some t := by
    intro s rest r hpass hrest hself n u hu t ht
    cases n with
    | zero => cases hu
    | succ n =>
      by_cases hs : s = []
      · rw [readFrom,if_pos hs] at hu
        cases hu
      · rw [readFrom,if_neg hs,hpass] at hu
        rcases List.mem_cons.mp hu with rfl | hu
        · rw [hpass] at ht
          exact hself t ht
        · exact hrest n u hu t ht
  induction h generalizing n with
  | done =>
    intro u hu
    cases n <;> cases hu
  | comment hcomment _ ih => exact hstep (linePass_comment hcomment) ih (fun t ht => nomatch ht) n
  | @short s hshort _ ih =>
    by_cases hs : s = []
    · intro u hu
      cases n <;> simp [readFrom,hs] at hu
    · exact hstep (linePass_short hs hshort) ih (fun t ht => nomatch ht) n
  | overlong hrule hover _ ih =>
    have hpass := (linePass_rule hrule).1
    rw [hover] at hpass
    exact hstep hpass ih (fun t ht => nomatch ht) n
  | rule hrule hover hstart _ ih =>
    have hpass := (linePass_rule hrule).1
    rw [hover] at hpass
    exact hstep hpass ih (fun t ht => ⟨hstart,ht⟩) n

theorem joinLines_subset (n : ℕ) (line rest : List UInt8) : (joinLines n line rest).1 ⊆ line ++ rest := by
  induction n generalizing line rest with
  | zero => exact List.subset_append_left _ _
  | succ n ih =>
    by_cases hc : continues line ∧ rest ≠ []
    · rw [joinLines_next n hc]
      refine List.append_subset.mpr ⟨fun c hc => List.mem_append_left _ (List.mem_of_mem_take hc),fun c hc => ?_⟩
      refine List.mem_append_right _ ?_
      rw [← physical_append rest]
      exact ih _ _ hc
    · rw [joinLines_stop _ hc]
      exact List.subset_append_left _ _

/-- Without NUL bytes, a file whose passes pass on only what starts a logical line is harmless. -/
theorem harmless_of_calls {starts : List (List UInt8)} (n : ℕ) {s : List UInt8} (hn : s.length < n) (hnul : 0 ∉ s)
    (h : ∀ u ∈ readFrom n s, (linePass u).1.isSome → u ∈ starts) : Harmless starts s := by
  induction n generalizing s with
  | zero => exact absurd hn (Nat.not_lt_zero _)
  | succ n ih =>
    by_cases hs : s = []
    · rw [hs]
      exact .done
    rw [readFrom,if_neg hs] at h
    obtain ⟨hself,hrest⟩ := List.forall_mem_cons.mp h
    obtain ⟨hsuffix,hless⟩ := linePass_rest hs
    have hnext := ih (by omega) (fun hmem => hnul (hsuffix.subset hmem)) hrest
    by_cases hcomment : isComment (physical s).1
    · rw [linePass_comment hcomment] at hnext
      exact .comment hcomment hnext
    by_cases hshort : ((physical s).1.takeWhile (· ≠ 0)).length < 3
    · rw [linePass_short hs hshort] at hnext
      exact .short hshort hnext
    have hlong := (List.takeWhile_prefix (l := (physical s).1) (· ≠ 0)).length_le
    have hrule : IsRule s := by
      refine ⟨hcomment,by omega,fun hmem => hnul ?_⟩
      have := joinLines_subset _ _ _ hmem
      rwa [physical_append] at this
    obtain ⟨hpass,hsome⟩ := linePass_rule hrule
    cases hover : overflow s with
    | none =>
      rw [hpass,hover] at hself hnext
      exact .rule hrule hover (hself (hsome hover)) hnext
    | some rest =>
      rw [hpass,hover] at hnext
      exact .overlong hrule hover hnext

/-- `parse_file` treats the logical lines of a file as it should when the file is harmless, and of the files
without NUL bytes it does so just for these. -/
theorem logical_lines_iff (continued : Bool) (content : List UInt8) :
    (Harmless (lineStarts continued content) content → LogicalLines continued content) ∧
      (0 ∉ content → LogicalLines continued content → Harmless (lineStarts continued content) content) := by
  constructor
  · intro h
    refine ⟨ruleCalls_nodup content,?_⟩
    rintro ⟨s,t⟩ hmem
    obtain ⟨hread,ht⟩ := mem_ruleCalls.mp hmem
    exact h.calls _ s hread t ht
  · intro hnul h
    refine harmless_of_calls _ (Nat.lt_succ_self _) hnul fun s hread hsome => ?_
    obtain ⟨t,ht⟩ := Option.isSome_iff_exists.mp hsome
    exact (h.text (s,t) (mem_ruleCalls.mpr ⟨hread,ht⟩)).1

/-- A comment that does not fit the buffer, and a rule at the end of its line. -/
def longComment : List UInt8 :=
  (chr '#'::List.replicate (utilLineSize-2) (chr 'x')) ++ str "RUN=\"a\"\n"

theorem longComment_physical : physical longComment = (longComment,[]) := by
  have hsplit : longComment =
      ((chr '#'::List.replicate (utilLineSize-2) (chr 'x')) ++ str "RUN=\"a\"") ++ chr '\n'::[] := by
    rw [List.append_assoc]
    rfl
  have hx : chr '\n' ≠ chr 'x' := by decide
  have htail : chr '\n' ∉ str "RUN=\"a\"" := by decide
  conv_lhs => rw [hsplit]
  rw [physical_line]
  · rw [hsplit]
  · simp [List.mem_replicate,hx,htail]
    decide

theorem startsFrom_last {continued : Bool} {s : List UInt8} (hs : s ≠ []) (h : nextLine continued s = [])
    (n : ℕ) : startsFrom continued (n+1) s = [s] := by
  rw [startsFrom,if_neg hs,h]
  cases n <;> rfl

theorem readStarts_two {s u : List UInt8} (hs : s ≠ []) (hu : u ≠ []) (h : (linePass s).2 = u)
    (hend : (linePass u).2 = []) : readStarts s = [s,u] := by
  obtain ⟨n,hn⟩ := Nat.exists_eq_succ_of_ne_zero (List.length_pos_iff.mpr hs).ne'
  rw [readStarts,hn,readFrom,if_neg hs,h,readFrom,if_neg hu,hend]
  cases n <;> rfl

theorem longComment_ne_nil : longComment ≠ [] := List.cons_ne_nil _ _

theorem longComment_starts (continued : Bool) : lineStarts continued longComment = [longComment] := by
  have hnext : nextLine continued longComment = [] := by
    unfold nextLine logicalLine
    rw [longComment_physical,joinLines_stop _ (by simp)]
    exact ite_self []
  exact startsFrom_last longComment_ne_nil hnext _

theorem longComment_pass : linePass longComment = (none,str "RUN=\"a\"\n") := by
  have hlen : (chr '#'::List.replicate (utilLineSize-2) (chr 'x')).length = utilLineSize-1 := by
    rw [List.length_cons,List.length_replicate]
    rfl
  have hlong : ¬longComment.length ≤ utilLineSize-1 := by
    rw [longComment,List.length_append,hlen]
    decide
  have hcut : takeLine (utilLineSize-1) longComment =
      (chr '#'::List.replicate (utilLineSize-2) (chr 'x'),str "RUN=\"a\"\n") := by
    rw [takeLine_physical,longComment_physical,if_neg hlong,longComment,List.take_left' hlen,
      List.drop_left' hlen]
  have hx : (0 : UInt8) ≠ chr 'x' := by decide
  have htail : (0 : UInt8) ∉ chr '#'::str "RUN=\"a\"\n" := by decide
  have hnul : 0 ∉ (physical longComment).1 := by
    rw [longComment_physical,longComment,List.cons_append,List.mem_cons,List.mem_append,List.mem_replicate]
    rw [List.mem_cons,not_or] at htail
    exact not_or.mpr ⟨htail.1,not_or.mpr ⟨fun h => hx h.2,htail.2⟩⟩
  have hread : fgets utilLineSize longComment = some _ :=
    fgets_physical (n := utilLineSize-1) longComment_ne_nil hnul
  rw [linePass_read hread,hcut]
  exact if_pos rfl

theorem longComment_calls : ruleCalls longComment = [(str "RUN=\"a\"\n",str "RUN=\"a\"\n")] := by
  have hrule : linePass (str "RUN=\"a\"\n") = (some (str "RUN=\"a\"\n"),[]) := by decide +kernel
  have hread : readStarts longComment = [longComment,str "RUN=\"a\"\n"] :=
    readStarts_two longComment_ne_nil (by decide) (by rw [longComment_pass]) (by rw [hrule])
  rw [ruleCalls,hread,List.filterMap_cons,longComment_pass,List.filterMap_cons,hrule]
  rfl

/-- The end of the comment is added as a rule, however a comment may go on. -/
theorem comment_remainder_added :
    fileLines longComment = [str "RUN=\"a\"\n"] ∧ ¬LogicalLines false longComment ∧
      ¬LogicalLines true longComment := by
  have hno : ∀ continued, ¬LogicalLines continued longComment := by
    intro continued h
    have hstart := (h.text _ (longComment_calls ▸ List.mem_singleton_self _)).1
    rw [longComment_starts,List.mem_singleton] at hstart
    exact absurd (List.cons.inj hstart).1 (by decide)
  refine ⟨?_,hno false,hno true⟩
  rw [← ruleCalls_texts,longComment_calls]
  rfl

/-- A line that is read as it is: there is room for it, and for the newline of a line that
follows, and a comment that may go on does not. -/
structure LineFits (continued : Bool) (s : List UInt8) : Prop where
  nul : 0 ∉ (logicalLine s).1
  comment : isComment (physical s).1 →
    (physical s).1.length+1 < utilLineSize ∧ (continued = true → logicalLine s = physical s)
  rule : ¬isComment (physical s).1 → (logicalLine s).1.length+2 < utilLineSize

theorem fillLines_length {n kept : ℕ} {s e : List UInt8} (h : fillLines (n+1) kept s = some e) :
    utilLineSize ≤ kept+(joinLines n (physical s).1 (physical s).2).1.length+2 := by
  induction n generalizing kept s with
  | zero =>
    rw [fillLines] at h
    split_ifs at h with hfull
    · show _ ≤ kept+(physical s).1.length+2
      omega
    · cases h
  | succ n ih =>
    rw [fillLines] at h
    split_ifs at h with hfull hc
    · have := joinLines_length (n+1) (physical s).1 (physical s).2
      omega
    · have hrest := ih h
      rw [joinLines_next n hc,List.length_append,List.length_take]
      omega

theorem linePass_fits {continued : Bool} {s : List UInt8} (hs : s ≠ []) (h : LineFits continued s) :
    linePass s = (lineText s,nextLine continued s) := by
  have hpiece : (physical s).1.length+1 < utilLineSize → pieceRest s = (physical s).2 := by
    intro hroom
    rw [pieceRest,takeLine_physical,if_pos (by omega)]
  by_cases hcomment : isComment (physical s).1
  · obtain ⟨hroom,hone⟩ := h.comment hcomment
    have hnext : nextLine continued s = (physical s).2 := by
      cases continued with
      | false => exact if_pos (.inr ⟨hcomment,rfl⟩)
      | true =>
        rw [nextLine,hone rfl]
        exact ite_self _
    rw [linePass_comment hcomment,hpiece hroom,lineText,if_pos (.inl hcomment),hnext]
  by_cases hshort : (physical s).1.length < 3
  · have hstring := (List.takeWhile_prefix (l := (physical s).1) (· ≠ 0)).length_le.trans_lt hshort
    have hroom : (physical s).1.length+1 < utilLineSize := by
      have : utilLineSize = 16384 := rfl
      omega
    rw [linePass_short hs hstring,hpiece hroom,lineText,if_pos (.inr (.inl hshort)),nextLine,if_pos (.inl hshort)]
  · have hnext : nextLine continued s = (logicalLine s).2 :=
      if_neg (not_or.mpr ⟨hshort,fun hno => hcomment hno.1⟩)
    have hover : overflow s = none := by
      rw [← Option.not_isSome_iff_eq_none,Option.isSome_iff_exists]
      rintro ⟨e,he⟩
      have hlong := fillLines_length he
      have hfits := h.rule hcomment
      unfold logicalLine at hfits
      omega
    rw [(linePass_rule ⟨hcomment,Nat.le_of_not_lt hshort,h.nul⟩).1,hover,hnext]
    rfl

theorem startsFrom_ne_nil {continued : Bool} {n : ℕ} {s u : List UInt8}
    (h : u ∈ startsFrom continued n s) : u ≠ [] := by
  induction n generalizing s with
  | zero => cases h
  | succ n ih =>
    by_cases hs : s = []
    · rw [startsFrom,if_pos hs] at h
      cases h
    · rw [startsFrom,if_neg hs] at h
      rcases List.mem_cons.mp h with rfl | hu
      · exact hs
      · exact ih hu

theorem readFrom_fits {continued : Bool} {n : ℕ} {s : List UInt8}
    (h : ∀ u ∈ startsFrom continued n s, LineFits continued u) :
    readFrom n s = startsFrom continued n s := by
  induction n generalizing s with
  | zero => rfl
  | succ n ih =>
    by_cases hs : s = []
    · rw [readFrom,if_pos hs,startsFrom,if_pos hs]
    · rw [startsFrom,if_neg hs] at h ⊢
      rw [readFrom,if_neg hs,linePass_fits hs (h s List.mem_cons_self),
        ih fun u hu => h u (List.mem_cons_of_mem _ hu)]

/-- In a file where every line fits the texts are those of the logical lines, each once and in order. -/
theorem fileLines_fits {continued : Bool} {content : List UInt8}
    (h : ∀ s ∈ lineStarts continued content, LineFits continued s) :
    fileLines content = (lineStarts continued content).filterMap lineText ∧ LogicalLines continued content := by
  have hread : readStarts content = lineStarts continued content := readFrom_fits h
  have hpass : ∀ s ∈ lineStarts continued content, (linePass s).1 = lineText s :=
    fun s hmem => by rw [linePass_fits (startsFrom_ne_nil hmem) (h s hmem)]
  constructor
  · show ruleLines (content.length+1) content = _
    rw [ruleLines_readFrom]
    show (readStarts content).filterMap _ = _
    rw [hread]
    exact List.filterMap_congr hpass
  · refine ⟨ruleCalls_nodup content,?_⟩
    rintro ⟨s,t⟩ hmem
    obtain ⟨hstart,ht⟩ := mem_ruleCalls.mp hmem
    rw [hread] at hstart
    exact ⟨hstart,hpass s hstart ▸ ht⟩

end Rules
end Udev
