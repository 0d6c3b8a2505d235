import Udev.LogicalLines
import Udev.Memory

/-! The configuration file of `scsi_id`. The cursor of `get_file_options` is a place of the line that is in
the buffer; a look before the buffer, behind the terminator of the line or through `NULL` is a fault. -/
namespace Udev
namespace ScsiConfig

open CString Text

inductive Fault
  | before | stale | null
  deriving DecidableEq, Repr

/-- `MAX_BUFFER_LEN` -/
def maxBufferLen : ℕ := 256

def lower (c : UInt8) : UInt8 := if chr 'A' ≤ c ∧ c ≤ chr 'Z' then c+32 else c

def strcaseeq (a b : CString) : Bool := a.map lower = b.map lower

/-- `line[p]` -/
def peek (line : CString) (p : ℕ) : Except Fault UInt8 := if p ≤ line.length then .ok (charAt line p) else .error .stale

/-- `strsep`: the bytes before the first delimiter, and the place behind it or `NULL` when there is none. -/
def strsep (line : CString) (buf : Option ℕ) (delims : List UInt8) : Except Fault (Option CString × Option ℕ) :=
  match buf with
  | none => .ok (none,none)
  | some p =>
    if p ≤ line.length then
      let val := (line.drop p).takeWhile (· ∉ delims)
      .ok (some val,if p+val.length < line.length then some (p+val.length+1) else none)
    else .error .stale

/-- `while (isspace(**buffer)) (*buffer)++;` for at most `n` bytes. -/
def skipFrom (line : CString) : ℕ → ℕ → Except Fault ℕ
  | 0, _ => .error .stale
  | n+1, p => (peek line p).bind fun c => if isspace c then skipFrom line n (p+1) else .ok p

def skipSpaces (line : CString) (p : ℕ) : Except Fault ℕ := skipFrom line (line.length+1-p) p

def quoteString : List UInt8 := [chr '"',chr '\n']

def commaString : List UInt8 := [chr ',',chr '\n']

/-- `get_value`; a cursor that `strsep` has set to `NULL` is looked through all the same. -/
def getValue (line : CString) (buf : Option ℕ) : Except Fault (Option CString × Option ℕ) :=
  match buf with
  | none => .error .null
  | some p => (peek line p).bind fun c =>
    let quoted := c = chr '"'
    (strsep line (some (if quoted then p+1 else p)) (if quoted then quoteString else commaString)).bind fun r =>
      match r.2 with
      | none => .error .null
      -- the place is behind the quote already
      | some p => (skipSpaces line (if quoted then p+1 else p)).bind fun p => .ok (r.1,some p)

/-- `vendor_in`, `model_in` and `options_in`. -/
structure Fields where
  vendor : Option CString := none
  model : Option CString := none
  options : Option CString := none
  deriving DecidableEq, Repr

/-- The words of the options that `scsi_id` takes as its arguments, up to `n` of them. -/
def splitArgs : ℕ → Option CString → List (Option CString)
  | 0, _ => []
  | n+1, none => none::splitArgs n none
  | n+1, some s =>
    let word := s.takeWhile (· ∉ [chr ' ',9])
    some word::splitArgs n (if word.length < s.length then some (s.drop (word.length+1)) else none)

def argcCount (opts : CString) : ℕ := opts.count (chr ' ')

/-- How `get_file_options` ends: an error, no match, or the arguments behind the first. -/
inductive Result
  | oom | parse | noMatch | options (argv : List (Option CString))
  deriving DecidableEq, Repr

inductive Step
  | next | stop (r : Result)
  deriving DecidableEq, Repr

/-- The vendor and the model of the device; neither for the default options. -/
abbrev Device := Option (CString × CString)

/-- `vendor_in` and `model_in` match, or are the default. -/
def fits (dev : Device) (f : Fields) : Bool :=
  match dev with
  | none => f.vendor.isNone
  | some d => f.vendor.any (startswith d.1) && f.model.all (startswith d.2)

def finish (dev : Device) (f : Fields) : Step :=
  match f.options with
  | none => .stop .parse
  | some options =>
    if f.vendor.isNone && f.model.isSome then .stop .parse
    else if fits dev f then .stop (.options (splitArgs (argcCount options+1) (some options)))
    else .next

/-- The end of a line where the options are expected; `str1` is what was cut off before. -/
def parseOptions (dev : Device) (line : CString) (f : Fields) (str1 : Option CString) (buf : Option ℕ) : Except Fault Step :=
  if str1.any (strcaseeq · (str "OPTIONS")) then
    (getValue line buf).bind fun v =>
      match v.1 with
      | none => .ok (.stop .oom)
      | some options => .ok (finish dev { f with options := some options })
  else .ok (finish dev f)

/-- `MODEL` and its value, if they come next. -/
def parseModel (dev : Device) (line : CString) (f : Fields) (str1 : Option CString) (buf : Option ℕ) : Except Fault Step :=
  if str1.any (strcaseeq · (str "MODEL")) then
    (getValue line buf).bind fun v =>
      match v.1 with
      | none => .ok (.stop .oom)
      | some model => (strsep line v.2 [chr '=']).bind fun r => parseOptions dev line { f with model := some model } r.1 r.2
  else parseOptions dev line f str1 buf

def parseVendor (dev : Device) (line : CString) (str1 : Option CString) (buf : Option ℕ) : Except Fault Step :=
  if str1.any (strcaseeq · (str "VENDOR")) then
    (getValue line buf).bind fun v =>
      match v.1 with
      | none => .ok (.stop .oom)
      | some vendor => (strsep line v.2 [chr '=']).bind fun r => parseModel dev line { vendor := some vendor } r.1 r.2
  else parseOptions dev line {} str1 buf

/-- One round of the loop, for a line as `fgets` leaves it in the buffer. -/
def parseLine (dev : Device) (line : CString) : Except Fault Step :=
  -- buf[strlen(buffer) - 1]
  if line = [] then .error .before
  else if line.getLast? ≠ some (chr '\n') then .ok (.stop .noMatch)
  else (skipSpaces line 0).bind fun p => (peek line p).bind fun c =>
    if c = 0 ∨ c = chr '#' then .ok .next
    else (strsep line (some p) [chr '=']).bind fun r => parseVendor dev line r.1 r.2

def parseLines (dev : Device) : List CString → Except Fault Result
  | [] => .ok .noMatch
  | line::lines => (parseLine dev line).bind fun
    | .next => parseLines dev lines
    | .stop r => .ok r

/-- The lines that `fgets` reads, at most `n`. -/
def readLines : ℕ → List UInt8 → List CString
  | 0, _ => []
  | n+1, file => (fgets maxBufferLen file).elim [] fun r => r.1::readLines n r.2

def getFileOptions (dev : Device) (file : List UInt8) : Except Fault Result := parseLines dev (readLines file.length file)

example : getFileOptions (some (str "ATA",str "disk")) (str "# all\nvendor=\"ATA\", model=disk, options=-p 0x80\n") =
    .ok (.options [some (str "-p"),some (str "0x80")]) := by decide +kernel

def At (line : CString) (p : ℕ) (t : CString) : Prop := p ≤ line.length ∧ line.drop p = t

def Ends (t : CString) : Prop := t = [] ∨ ∃ u, t = u ++ [chr '\n'] ∧ chr '\n' ∉ u

def KeyIs (key t : CString) : Prop := chr '=' ∈ t ∧ strcaseeq (t.takeWhile (· ∉ [chr '='])) key

instance (key t : CString) : Decidable (KeyIs key t) := inferInstanceAs (Decidable (_ ∧ _))

/-- What is behind the `=`. -/
def after (t : CString) : CString := t.drop ((t.takeWhile (· ∉ [chr '='])).length+1)

def ValueClosed (t : CString) : Prop := t.head? = some (chr '"') → chr '"' ∈ t.tail

instance (t : CString) : Decidable (ValueClosed t) := inferInstanceAs (Decidable (_ → _))

def valueOf (t : CString) : CString :=
  if t.head? = some (chr '"') then t.tail.takeWhile (· ∉ quoteString) else t.takeWhile (· ∉ commaString)

def restOf (t : CString) : CString :=
  (if t.head? = some (chr '"') then t.tail.drop ((valueOf t).length+2) else t.drop ((valueOf t).length+1)).dropWhile isspace

theorem bind_ok {α β : Type} (a : α) (g : α → Except Fault β) : (Except.ok a).bind g = g a := rfl

section Cursor

variable {line t u key : CString} {p k n : ℕ} {delims : List UInt8}

theorem At.length (h : At line p t) : line.length = p+t.length := by
  obtain ⟨hp,rfl⟩ := h
  rw [List.length_drop]
  omega

theorem At.drop (h : At line p t) (hk : k ≤ t.length) : At line (p+k) (t.drop k) := by
  have := h.length
  refine ⟨by omega,?_⟩
  rw [← List.drop_drop,h.2]

theorem peek_at (h : At line p t) : peek line p = .ok (charAt t 0) := by
  rw [peek,if_pos h.1,← h.2,charAt,charAt,List.getD_eq_getElem?_getD,List.getD_eq_getElem?_getD,List.getElem?_drop,Nat.add_zero]

theorem strsep_at (h : At line p t) : strsep line (some p) delims = .ok (some (t.takeWhile (· ∉ delims)),
    if (t.takeWhile (· ∉ delims)).length < t.length then some (p+(t.takeWhile (· ∉ delims)).length+1) else none) := by
  have hlen := h.length
  rw [strsep]
  dsimp only
  rw [if_pos h.1,h.2]
  refine congrArg (fun x => Except.ok (some (t.takeWhile (· ∉ delims)),x)) ?_
  by_cases hlt : (t.takeWhile (· ∉ delims)).length < t.length
  · rw [if_pos hlt,if_pos (by omega)]
  · rw [if_neg hlt,if_neg (by omega)]

theorem skip_at (h : At line p t) : ∃ q, skipSpaces line p = .ok q ∧ At line q (t.dropWhile isspace) := by
  have hfuel : line.length+1-p = t.length+1 := by
    have := h.length
    omega
  rw [skipSpaces,hfuel]
  induction t generalizing p with
  | nil =>
    rw [skipFrom,peek_at h]
    exact ⟨p,rfl,h⟩
  | cons c t ih =>
    rw [skipFrom,peek_at h]
    change ∃ q, (if isspace c then skipFrom line (t.length+1) (p+1) else .ok p) = .ok q ∧ _
    by_cases hc : isspace c = true
    · rw [if_pos hc,List.dropWhile_cons_of_pos hc]
      have hnext : At line (p+1) t := h.drop (k := 1) (Nat.succ_le_succ (Nat.zero_le _))
      exact ih hnext (by have := hnext.length; omega)
    · rw [if_neg hc,List.dropWhile_cons_of_neg hc]
      exact ⟨p,rfl,h⟩

theorem Ends.drop (h : Ends t) (k : ℕ) : Ends (t.drop k) := by
  rcases h with rfl | ⟨u,rfl,hu⟩
  · exact Or.inl List.drop_nil
  · by_cases hk : k ≤ u.length
    · rw [List.drop_append_of_le_length hk]
      exact Or.inr ⟨u.drop k,rfl,fun hmem => hu (List.mem_of_mem_drop hmem)⟩
    · exact Or.inl (List.drop_eq_nil_of_le (by rw [List.length_append,List.length_singleton]; omega))

theorem Ends.dropWhile (h : Ends t) (q : UInt8 → Bool) : Ends (t.dropWhile q) := by
  rw [List.dropWhile_eq_drop_findIdx_not]
  exact h.drop _

theorem takeWhile_split (delims : List UInt8) (h : ∃ c ∈ t, c ∈ delims) : ∃ c rest, t = t.takeWhile (· ∉ delims) ++ c::rest ∧ c ∈ delims := by
  induction t with
  | nil =>
    obtain ⟨c,hc,-⟩ := h
    cases hc
  | cons b t ih =>
    by_cases hb : b ∈ delims
    · exact ⟨b,t,by rw [List.takeWhile_cons_of_neg (by simpa using hb)]; rfl,hb⟩
    · obtain ⟨c,hc,hcd⟩ := h
      have htail : ∃ c ∈ t, c ∈ delims := by
        rcases List.mem_cons.mp hc with rfl | hc
        · exact absurd hcd hb
        · exact ⟨c,hc,hcd⟩
      obtain ⟨c,rest,heq,hcd⟩ := ih htail
      refine ⟨c,rest,?_,hcd⟩
      rw [List.takeWhile_cons_of_pos (by simpa using hb),List.cons_append,← heq]

end Cursor

section Value

variable {line t u key : CString} {p : ℕ}

theorem Ends.newline_mem (h : Ends t) (hne : t ≠ []) : chr '\n' ∈ t := by
  rcases h with rfl | ⟨u,rfl,-⟩
  · exact absurd rfl hne
  · simp

/-- Behind the newline there is nothing, and behind any other byte there is something. -/
theorem Ends.split {a rest : CString} {c : UInt8} (h : Ends (a ++ c::rest)) : c = chr '\n' ↔ rest = [] := by
  rcases h with h | ⟨u,hu,hnl⟩
  · exact absurd h (List.append_ne_nil_of_right_ne_nil _ (List.cons_ne_nil _ _))
  · rcases List.eq_nil_or_concat rest with rfl | ⟨rest,b,rfl⟩
    · obtain ⟨-,hc⟩ := List.append_inj' hu rfl
      exact iff_of_true (List.cons.inj hc).1 rfl
    · rw [List.concat_eq_append,← List.cons_append,← List.append_assoc] at hu
      obtain ⟨hu,-⟩ := List.append_inj' hu rfl
      refine iff_of_false (fun hc => hnl ?_) (by simp)
      rw [← hu,hc]
      simp

theorem getValue_unquoted (h : At line p t) (ht : Ends t) (hne : t ≠ []) (hq : t.head? ≠ some (chr '"')) :
    ∃ q, getValue line (some p) = .ok (some (valueOf t),some q) ∧ At line q (restOf t) := by
  have hc : charAt t 0 ≠ chr '"' := by
    cases t with
    | nil => exact absurd rfl hne
    | cons b t => exact fun hb => hq (congrArg some hb)
  obtain ⟨c,rest,heq,-⟩ := takeWhile_split commaString ⟨_,ht.newline_mem hne,by decide⟩
  have hvalue : valueOf t = t.takeWhile (· ∉ commaString) := if_neg hq
  have hlt : (t.takeWhile (· ∉ commaString)).length < t.length := by
    have := congrArg List.length heq
    rw [List.length_append,List.length_cons] at this
    omega
  obtain ⟨q,hskip,hat⟩ := skip_at (h.drop (Nat.succ_le_of_lt hlt))
  refine ⟨q,?_,?_⟩
  · rw [getValue]
    dsimp only
    rw [peek_at h,Except.bind,if_neg hc,if_neg hc,strsep_at h,if_pos hlt,hvalue]
    change (skipSpaces line (if charAt t 0 = chr '"' then _ else _)).bind _ = _
    rw [if_neg hc,Nat.add_assoc,hskip]
    rfl
  · rw [restOf,if_neg hq,hvalue]
    exact hat

/-- A quoted value with its closing quote is read; without it the cursor leaves the line. -/
theorem getValue_quoted {v : CString} (h : At line p (chr '"'::v)) (ht : Ends (chr '"'::v)) :
    (chr '"' ∈ v → ∃ q, getValue line (some p) = .ok (some (valueOf (chr '"'::v)),some q) ∧
      At line q (restOf (chr '"'::v))) ∧ (chr '"' ∉ v → getValue line (some p) = .error .stale) := by
  have hnext : At line (p+1) v := h.drop (k := 1) (Nat.succ_le_succ (Nat.zero_le _))
  have hmem : chr '\n' ∈ v := by
    have := ht.newline_mem (List.cons_ne_nil _ _)
    rcases List.mem_cons.mp this with hnl | hnl
    · exact absurd hnl (by decide)
    · exact hnl
  obtain ⟨c,rest,heq,hc⟩ := takeWhile_split quoteString ⟨_,hmem,by decide⟩
  have hvalue : valueOf (chr '"'::v) = v.takeWhile (· ∉ quoteString) := if_pos rfl
  have hlen := congrArg List.length heq
  rw [List.length_append,List.length_cons] at hlen
  have hlt : (v.takeWhile (· ∉ quoteString)).length < v.length := by omega
  have hrun : getValue line (some p) = (skipSpaces line (p+1+((v.takeWhile (· ∉ quoteString)).length+2))).bind
      fun q => .ok (some (v.takeWhile (· ∉ quoteString)),some q) := by
    rw [getValue]
    dsimp only
    rw [peek_at h,Except.bind,show charAt (chr '"'::v) 0 = chr '"' from rfl,if_pos rfl,if_pos rfl,strsep_at hnext,if_pos hlt]
    rfl
  have hends : Ends (v.takeWhile (· ∉ quoteString) ++ c::rest) := by
    rw [← heq]
    exact ht.drop 1
  have hrest := hends.split
  rw [quoteString,List.mem_cons,List.mem_singleton] at hc
  rcases hc with rfl | rfl
  · have hne : rest ≠ [] := fun h => absurd (hrest.mpr h) (by decide)
    have hpos : 0 < rest.length := List.length_pos_of_ne_nil hne
    have hquote : chr '"' ∈ v := by
      rw [heq]
      simp
    refine ⟨fun _ => ?_,fun hnot => absurd hquote hnot⟩
    obtain ⟨q,hskip,hat⟩ := skip_at (hnext.drop (k := (v.takeWhile (· ∉ quoteString)).length+2) (by omega))
    refine ⟨q,?_,?_⟩
    · rw [hrun,hskip,hvalue]
      rfl
    · have hhead : (chr '"'::v).head? = some (chr '"') := rfl
      rw [restOf,if_pos hhead,hvalue]
      exact hat
  · have hnil : rest = [] := hrest.mp rfl
    have hquote : chr '"' ∉ v := by
      rw [heq,hnil]
      intro hq
      rcases List.mem_append.mp hq with hq | hq
      · exact absurd (List.mem_takeWhile_imp hq) (by decide)
      · exact absurd (List.mem_singleton.mp hq) (by decide)
    refine ⟨fun hq => absurd hq hquote,fun _ => ?_⟩
    have hline := hnext.length
    rw [hnil,List.length_nil] at hlen
    rw [hrun,skipSpaces,Nat.sub_eq_zero_of_le (by omega)]
    rfl

theorem getValue_at (h : At line p t) (ht : Ends t) (hne : t ≠ []) :
    (ValueClosed t → ∃ q, getValue line (some p) = .ok (some (valueOf t),some q) ∧ At line q (restOf t)) ∧
      (¬ValueClosed t → getValue line (some p) = .error .stale) := by
  by_cases hq : t.head? = some (chr '"')
  · obtain ⟨v,rfl⟩ : ∃ v, t = chr '"'::v := by
      cases t with
      | nil => cases hq
      | cons b v => exact ⟨v,by rw [Option.some.inj hq]⟩
    have hvalue := getValue_quoted h ht
    exact ⟨fun hclosed => hvalue.1 (hclosed rfl),fun hopen => hvalue.2 fun hmem => hopen fun _ => hmem⟩
  · exact ⟨fun _ => getValue_unquoted h ht hne hq,fun hopen => absurd (fun h => absurd h hq) hopen⟩

theorem ends_restOf (h : Ends t) : Ends (restOf t) := by
  rw [restOf]
  refine Ends.dropWhile ?_ _
  by_cases hq : t.head? = some (chr '"')
  · rw [if_pos hq,← List.drop_one,List.drop_drop]
    exact h.drop _
  · rw [if_neg hq]
    exact h.drop _

/-- What was cut off before `=` tells the field, and the cursor is behind the `=`. -/
structure Cut (line t : CString) (r : Option CString × Option ℕ) : Prop where
  keyIs : ∀ key, chr '\n' ∉ key.map lower → key ≠ [] → (r.1.any (strcaseeq · key) = true ↔ KeyIs key t)
  after : chr '=' ∈ t → ∃ q, r.2 = some q ∧ At line q (after t) ∧ Ends (after t) ∧ after t ≠ []

theorem strsep_cut (h : At line p t) (ht : Ends t) : ∃ r, strsep line (some p) [chr '='] = .ok r ∧ Cut line t r := by
  refine ⟨_,strsep_at h,fun key hkey hne => ?_,fun heq => ?_⟩
  · rw [Option.any_some,KeyIs,iff_and_self]
    intro hcase
    by_contra hnot
    have hself : t.takeWhile (· ∉ [chr '=']) = t := by
      refine List.takeWhile_eq_self_iff.mpr fun c hc => decide_eq_true fun hmem => hnot ?_
      rwa [List.mem_singleton.mp hmem] at hc
    rw [hself,strcaseeq,decide_eq_true_iff] at hcase
    by_cases hnil : t = []
    · rw [hnil,List.map_nil] at hcase
      exact hne (List.map_eq_nil_iff.mp hcase.symm)
    · have hnl : lower (chr '\n') ∈ t.map lower := List.mem_map_of_mem (ht.newline_mem hnil)
      rw [hcase] at hnl
      exact hkey hnl
  · obtain ⟨c,rest,hsplit,hc⟩ := takeWhile_split [chr '='] ⟨_,heq,List.mem_singleton_self _⟩
    obtain rfl := List.mem_singleton.mp hc
    have hlen := congrArg List.length hsplit
    rw [List.length_append,List.length_cons] at hlen
    have hends : Ends (t.takeWhile (· ∉ [chr '=']) ++ chr '='::rest) := by rwa [← hsplit]
    have hpos : 0 < rest.length := List.length_pos_of_ne_nil fun hnil => absurd (hends.split.mpr hnil) (by decide)
    refine ⟨p+((t.takeWhile (· ∉ [chr '='])).length+1),if_pos (by omega),h.drop (by omega),ht.drop _,fun hnil => ?_⟩
    have := congrArg List.length hnil
    rw [after,List.length_drop,List.length_nil] at this
    omega

end Value

def OptionsSafe (t : CString) : Prop := KeyIs (str "OPTIONS") t → ValueClosed (after t)

def ModelSafe (t : CString) : Prop :=
  if KeyIs (str "MODEL") t then ValueClosed (after t) ∧ OptionsSafe (restOf (after t)) else OptionsSafe t

def VendorSafe (t : CString) : Prop :=
  if KeyIs (str "VENDOR") t then ValueClosed (after t) ∧ ModelSafe (restOf (after t)) else OptionsSafe t

def optionsOf (t : CString) (f : Fields) : Fields :=
  if KeyIs (str "OPTIONS") t then { f with options := some (valueOf (after t)) } else f

def modelOf (t : CString) (f : Fields) : Fields :=
  if KeyIs (str "MODEL") t then optionsOf (restOf (after t)) { f with model := some (valueOf (after t)) } else optionsOf t f

def fieldsOf (t : CString) : Fields :=
  if KeyIs (str "VENDOR") t then modelOf (restOf (after t)) { vendor := some (valueOf (after t)) } else optionsOf t {}

/-- The line does not begin with `NUL`, and its quoted values are closed where they are read. -/
def LineSafe (line : CString) : Prop :=
  line ≠ [] ∧ (line.getLast? = some (chr '\n') →
    (line.dropWhile isspace).head? = some (chr '#') ∨ VendorSafe (line.dropWhile isspace))

/-- The search goes on behind the line: it is blank, a comment, or does not match. -/
def Passes (dev : Device) (line : CString) : Prop :=
  line.getLast? = some (chr '\n') ∧ (line.dropWhile isspace = [] ∨ (line.dropWhile isspace).head? = some (chr '#') ∨
    finish dev (fieldsOf (line.dropWhile isspace)) = .next)

/-- All lines up to the one where the search ends are safe. -/
def Safe (dev : Device) : List CString → Prop
  | [] => True
  | line::lines => LineSafe line ∧ (Passes dev line → Safe dev lines)

section Parse

variable {dev : Device} {line t : CString} {r : Option CString × Option ℕ} {f : Fields}

theorem parseOptions_cut (dev : Device) (hr : Cut line t r) :
    (OptionsSafe t → parseOptions dev line f r.1 r.2 = .ok (finish dev (optionsOf t f))) ∧
      (¬OptionsSafe t → parseOptions dev line f r.1 r.2 = .error .stale) := by
  have hkey := hr.keyIs (str "OPTIONS") (by decide) (by decide)
  rw [parseOptions,optionsOf]
  by_cases hopt : KeyIs (str "OPTIONS") t
  · obtain ⟨q,hq,hat,hends,hne⟩ := hr.after hopt.1
    have hvalue := getValue_at hat hends hne
    rw [if_pos (hkey.mpr hopt),if_pos hopt,hq]
    refine ⟨fun hsafe => ?_,fun hbad => ?_⟩
    · obtain ⟨q',hget,-⟩ := hvalue.1 (hsafe hopt)
      rw [hget]
      rfl
    · rw [hvalue.2 fun hclosed => hbad fun _ => hclosed]
      rfl
  · rw [if_neg (mt hkey.mp hopt),if_neg hopt]
    exact ⟨fun _ => rfl,fun hbad => absurd (fun h => absurd h hopt) hbad⟩

theorem parseModel_cut (dev : Device) (hr : Cut line t r) :
    (ModelSafe t → parseModel dev line f r.1 r.2 = .ok (finish dev (modelOf t f))) ∧
      (¬ModelSafe t → parseModel dev line f r.1 r.2 = .error .stale) := by
  have hkey := hr.keyIs (str "MODEL") (by decide) (by decide)
  rw [parseModel,modelOf,ModelSafe]
  by_cases hmodel : KeyIs (str "MODEL") t
  · obtain ⟨q,hq,hat,hends,hne⟩ := hr.after hmodel.1
    have hvalue := getValue_at hat hends hne
    rw [if_pos (hkey.mpr hmodel),if_pos hmodel,if_pos hmodel,hq]
    by_cases hclosed : ValueClosed (after t)
    · obtain ⟨q',hget,hat'⟩ := hvalue.1 hclosed
      obtain ⟨r',hsep,hr'⟩ := strsep_cut hat' (ends_restOf hends)
      have hopt := parseOptions_cut dev (f := { f with model := some (valueOf (after t)) }) hr'
      rw [and_iff_right hclosed,hget,bind_ok]
      dsimp only
      rw [hsep,bind_ok]
      exact hopt
    · rw [hvalue.2 hclosed]
      exact ⟨fun hsafe => absurd hsafe.1 hclosed,fun _ => rfl⟩
  · rw [if_neg (mt hkey.mp hmodel),if_neg hmodel,if_neg hmodel]
    exact parseOptions_cut dev hr

theorem parseVendor_cut (dev : Device) (hr : Cut line t r) :
    (VendorSafe t → parseVendor dev line r.1 r.2 = .ok (finish dev (fieldsOf t))) ∧
      (¬VendorSafe t → parseVendor dev line r.1 r.2 = .error .stale) := by
  have hkey := hr.keyIs (str "VENDOR") (by decide) (by decide)
  rw [parseVendor,fieldsOf,VendorSafe]
  by_cases hvendor : KeyIs (str "VENDOR") t
  · obtain ⟨q,hq,hat,hends,hne⟩ := hr.after hvendor.1
    have hvalue := getValue_at hat hends hne
    rw [if_pos (hkey.mpr hvendor),if_pos hvendor,if_pos hvendor,hq]
    by_cases hclosed : ValueClosed (after t)
    · obtain ⟨q',hget,hat'⟩ := hvalue.1 hclosed
      obtain ⟨r',hsep,hr'⟩ := strsep_cut hat' (ends_restOf hends)
      have hmodel := parseModel_cut dev (f := { vendor := some (valueOf (after t)) }) hr'
      rw [and_iff_right hclosed,hget,bind_ok]
      dsimp only
      rw [hsep,bind_ok]
      exact hmodel
    · rw [hvalue.2 hclosed]
      exact ⟨fun hsafe => absurd hsafe.1 hclosed,fun _ => rfl⟩
  · rw [if_neg (mt hkey.mp hvendor),if_neg hvendor,if_neg hvendor]
    exact parseOptions_cut dev hr

/-- A line as `fgets` leaves it: a newline is its last byte. -/
def IsLine (line : CString) : Prop := chr '\n' ∉ line.dropLast ∧ 0 ∉ line

theorem IsLine.ends (h : IsLine line) (hlast : line.getLast? = some (chr '\n')) : Ends line := by
  obtain ⟨u,rfl⟩ := List.getLast?_eq_some_iff.mp hlast
  have hu := h.1
  rw [List.dropLast_concat] at hu
  exact Or.inr ⟨u,rfl,hu⟩

theorem vendorSafe_nil : VendorSafe [] := by
  rw [VendorSafe,if_neg fun h => absurd h.1 List.not_mem_nil]
  exact fun h => absurd h.1 List.not_mem_nil

/-- One round has no fault if and only if the line is safe, and then goes on as `Passes` says. -/
theorem parseLine_safe (dev : Device) (hline : IsLine line) :
    (LineSafe line → ∃ s, parseLine dev line = .ok s ∧ (s = .next ↔ Passes dev line) ∧ (s ≠ .next → ∃ r, s = .stop r)) ∧
      (¬LineSafe line → ∃ e, parseLine dev line = .error e) := by
  have hstep : ∀ s : Step, s ≠ .next → ∃ r, s = .stop r := fun s hs => by
    cases s with
    | next => exact absurd rfl hs
    | stop r => exact ⟨r,rfl⟩
  rw [parseLine]
  by_cases hnil : line = []
  · rw [if_pos hnil]
    exact ⟨fun hsafe => absurd hnil hsafe.1,fun _ => ⟨_,rfl⟩⟩
  rw [if_neg hnil]
  by_cases hlast : line.getLast? = some (chr '\n')
  · obtain ⟨q,hskip,hat⟩ := skip_at (show At line 0 line from ⟨Nat.zero_le _,List.drop_zero⟩)
    have hends := (hline.ends hlast).dropWhile isspace
    have h0 : 0 ∉ line.dropWhile isspace := fun h => hline.2 ((List.dropWhile_sublist _).subset h)
    rw [if_neg (not_not.mpr hlast),hskip,bind_ok,peek_at hat,bind_ok]
    unfold LineSafe Passes
    rw [and_iff_right hlast]
    generalize line.dropWhile isspace = t at hat hends h0
    by_cases hend : charAt t 0 = 0 ∨ charAt t 0 = chr '#'
    · rw [if_pos hend]
      have hor : t = [] ∨ t.head? = some (chr '#') := by
        cases t with
        | nil => exact Or.inl rfl
        | cons c t =>
          refine Or.inr (congrArg some (hend.resolve_left fun hc => h0 ?_))
          rw [show c = 0 from hc]
          exact List.mem_cons_self
      have hsafe : t.head? = some (chr '#') ∨ VendorSafe t := hor.symm.imp_right fun h : t = [] => h ▸ vendorSafe_nil
      refine ⟨fun _ => ⟨.next,rfl,iff_of_true rfl ?_,fun h => absurd rfl h⟩,fun hbad => absurd ⟨hnil,fun _ => hsafe⟩ hbad⟩
      rw [← or_assoc]
      exact Or.inl hor
    · rw [if_neg hend]
      have hne : t ≠ [] := fun h => hend (Or.inl (by rw [h]; rfl))
      have hcomment : t.head? ≠ some (chr '#') := by
        cases t with
        | nil => exact absurd rfl hne
        | cons c t => exact fun h => hend (Or.inr (Option.some.inj h))
      obtain ⟨r,hsep,hr⟩ := strsep_cut hat hends
      have hvendor := parseVendor_cut dev hr
      rw [hsep,bind_ok]
      refine ⟨fun hsafe => ⟨_,hvendor.1 ((hsafe.2 hlast).resolve_left hcomment),?_,hstep _⟩,fun hbad =>
        ⟨_,hvendor.2 fun hsafe => hbad ⟨hnil,fun _ => Or.inr hsafe⟩⟩⟩
      rw [or_iff_right hne,or_iff_right hcomment]
  · rw [if_pos hlast]
    refine ⟨fun _ => ⟨_,rfl,iff_of_false nofun fun hpass => hlast hpass.1,hstep _⟩,fun hbad => ?_⟩
    exact absurd ⟨hnil,fun h => absurd h hlast⟩ hbad

theorem parseLines_safe (dev : Device) {lines : List CString} (h : ∀ line ∈ lines, IsLine line) :
    (∃ r, parseLines dev lines = .ok r) ↔ Safe dev lines := by
  induction lines with
  | nil => exact iff_of_true ⟨_,rfl⟩ trivial
  | cons line lines ih =>
    rw [List.forall_mem_cons] at h
    obtain ⟨hsafe,hbad⟩ := parseLine_safe dev h.1
    rw [parseLines,Safe]
    by_cases hline : LineSafe line
    · obtain ⟨s,hs,hnext,hstop⟩ := hsafe hline
      rw [and_iff_right hline,hs,bind_ok]
      by_cases hpass : Passes dev line
      · rw [hnext.mpr hpass,forall_prop_of_true hpass]
        exact ih h.2
      · obtain ⟨r,rfl⟩ := hstop fun hs => hpass (hnext.mp hs)
        exact iff_of_true ⟨r,rfl⟩ fun hp => absurd hp hpass
    · obtain ⟨e,he⟩ := hbad hline
      rw [he]
      exact iff_of_false (fun ⟨r,hr⟩ => by cases hr) fun hs => hline hs.1

end Parse

section Lines

theorem takeLine_newline (n : ℕ) (s : List UInt8) : chr '\n' ∉ (takeLine n s).1.dropLast := by
  induction n generalizing s with
  | zero =>
    rw [takeLine]
    exact List.not_mem_nil
  | succ n ih =>
    cases s with
    | nil => exact List.not_mem_nil
    | cons c s =>
      rw [takeLine]
      by_cases hc : c = chr '\n'
      · rw [if_pos hc]
        exact List.not_mem_nil
      · rw [if_neg hc]
        dsimp only
        by_cases hnil : (takeLine n s).1 = []
        · rw [hnil]
          exact List.not_mem_nil
        · rw [List.dropLast_cons_of_ne_nil hnil,List.mem_cons,not_or]
          exact ⟨Ne.symm hc,ih s⟩

theorem isLine_fgets {n : ℕ} {s line rest : List UInt8} (h : fgets n s = some (line,rest)) : IsLine line := by
  refine ⟨fun hmem => ?_,Rules.fgets_nul h⟩
  rw [fgets] at h
  split_ifs at h
  obtain ⟨rfl,-⟩ := Prod.mk.inj (Option.some.inj h)
  refine takeLine_newline (n-1) s ?_
  have hsplit := List.takeWhile_append_dropWhile (p := fun c => decide (c ≠ 0)) (l := (takeLine (n-1) s).1)
  rw [← hsplit]
  by_cases hnil : (takeLine (n-1) s).1.dropWhile (fun c => decide (c ≠ 0)) = []
  · rwa [hnil,List.append_nil]
  · rw [List.dropLast_append_of_ne_nil hnil]
    exact List.mem_append_left _ (List.mem_of_mem_dropLast hmem)

theorem isLine_readLines (n : ℕ) (file : List UInt8) : ∀ line ∈ readLines n file, IsLine line := by
  induction n generalizing file with
  | zero => exact fun line h => absurd h List.not_mem_nil
  | succ n ih =>
    rw [readLines]
    cases hread : fgets maxBufferLen file with
    | none => exact fun line h => absurd h List.not_mem_nil
    | some r =>
      rw [Option.elim_some,List.forall_mem_cons]
      exact ⟨isLine_fgets hread,ih r.2⟩

end Lines

/-- The file is read without a fault if and only if no line that the search comes to begins with `NUL` or leaves a
quoted value open. -/
theorem get_file_options_safe (dev : Device) (file : List UInt8) :
    (∃ r, getFileOptions dev file = .ok r) ↔ Safe dev (readLines file.length file) :=
  parseLines_safe dev (isLine_readLines _ _)

/-- A quoted value that ends with its line: the cursor leaves the line. -/
theorem get_file_options_stale : ¬∀ (dev : Device) (file : List UInt8), ∃ r, getFileOptions dev file = .ok r := by
  intro h
  obtain ⟨r,hr⟩ := h none (str "OPTIONS=\"-g\n")
  have hfault : getFileOptions none (str "OPTIONS=\"-g\n") = .error .stale := by decide +kernel
  rw [hfault] at hr
  cases hr

end ScsiConfig
end Udev
