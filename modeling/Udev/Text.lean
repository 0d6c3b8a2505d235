import Udev.CString
import Mathlib.Algebra.Ring.Int.Defs
import Mathlib.Algebra.Ring.Nat
import Mathlib.Data.List.TakeWhile

/-! The string helpers of the rules engine: bounded copies, numbers, reading lines,
and the replacement of characters that may not go into a name. -/
namespace Udev
namespace Text

open CString

def utilPathSize : ℕ := 1024

def utilNameSize : ℕ := 512

def utilLineSize : ℕ := 16384

/-- `strpcpy`: what the buffer holds so far and the room that is left. -/
def strpcpy (d : CString × ℕ) (src : CString) : CString × ℕ :=
  if src.length ≥ d.2 then (d.1 ++ src.take (d.2-1),0) else (d.1 ++ src,d.2-src.length)

def strscpyl (size : ℕ) (parts : List CString) : CString := (parts.foldl strpcpy ([],size)).1

def strscpy (size : ℕ) (src : CString) : CString := strscpyl size [src]

/-- The bytes in a buffer of some size and the room that is left, which is 0 once the
buffer was full. -/
def Fits (size : ℕ) (d : CString × ℕ) : Prop := d.1.length+max d.2 1 = size

theorem fits_strpcpy {size : ℕ} {d : CString × ℕ} (h : Fits size d) (src : CString) :
    Fits size (strpcpy d src) := by
  unfold Fits at h ⊢
  unfold strpcpy
  split_ifs with hfull
  · simp only [List.length_append,List.length_take]
    omega
  · simp only [List.length_append]
    omega

theorem fits_foldl {size : ℕ} (parts : List CString) {d : CString × ℕ} (h : Fits size d) :
    Fits size (parts.foldl strpcpy d) := by
  induction parts generalizing d with
  | nil => exact h
  | cons src parts ih => exact ih (fits_strpcpy h src)

theorem fits_strscpyl {size : ℕ} (hsize : 0 < size) (parts : List CString) :
    Fits size (parts.foldl strpcpy ([],size)) :=
  fits_foldl parts (by simp only [Fits,List.length_nil]; omega)

theorem strscpyl_length {size : ℕ} (hsize : 0 < size) (parts : List CString) :
    (strscpyl size parts).length < size := by
  have hfits := fits_strscpyl hsize parts
  unfold Fits at hfits
  unfold strscpyl
  omega

theorem foldl_strpcpy {parts : List CString} {d : CString × ℕ} (h : parts.flatten.length < d.2) :
    parts.foldl strpcpy d = (d.1 ++ parts.flatten,d.2-parts.flatten.length) := by
  induction parts generalizing d with
  | nil => simp
  | cons src parts ih =>
    rw [List.flatten_cons,List.length_append] at h
    have hcopy : strpcpy d src = (d.1 ++ src,d.2-src.length) := if_neg (by omega)
    rw [List.foldl_cons,hcopy,ih (by simp only; omega),List.flatten_cons,List.length_append,
      List.append_assoc,Nat.sub_sub]

theorem strscpyl_fits {size : ℕ} {parts : List CString} (h : parts.flatten.length < size) :
    strscpyl size parts = parts.flatten := by
  rw [strscpyl,foldl_strpcpy h,List.nil_append]

theorem foldl_strpcpy_full {parts : List CString} {d : CString × ℕ} (h : d.2 ≤ parts.flatten.length) :
    (parts.foldl strpcpy d).2 = 0 := by
  induction parts generalizing d with
  | nil => simpa using h
  | cons src parts ih =>
    rw [List.flatten_cons,List.length_append] at h
    refine ih ?_
    unfold strpcpy
    split_ifs <;> simp only <;> omega

theorem strscpyl_short {size : ℕ} {parts : List CString} (h : (strscpyl size parts).length+1 < size) :
    strscpyl size parts = parts.flatten := by
  by_cases hfit : parts.flatten.length < size
  · exact strscpyl_fits hfit
  · have hfull : (parts.foldl strpcpy ([],size)).2 = 0 := foldl_strpcpy_full (Nat.le_of_not_lt hfit)
    have hfits := fits_strscpyl (Nat.zero_lt_of_lt h) parts
    unfold Fits at hfits
    unfold strscpyl at h
    omega

theorem foldl_strpcpy_take (parts : List CString) (d : CString × ℕ) :
    (parts.foldl strpcpy d).1 = d.1 ++ parts.flatten.take (d.2-1) := by
  induction parts generalizing d with
  | nil => simp
  | cons src parts ih =>
    rw [List.foldl_cons,ih,List.flatten_cons,List.take_append,strpcpy]
    split_ifs with hfull
    · have hrest : d.2-1-src.length = 0 := by omega
      rw [hrest,List.take_zero,List.append_nil]
      exact List.append_nil _
    · have hrest : d.2-src.length-1 = d.2-1-src.length := by omega
      rw [List.take_of_length_le (l := src) (by omega),← List.append_assoc,hrest]

theorem strscpyl_take (size : ℕ) (parts : List CString) : strscpyl size parts = parts.flatten.take (size-1) :=
  foldl_strpcpy_take parts ([],size)

theorem strscpy_fits {size : ℕ} {s : CString} (h : s.length < size) : strscpy size s = s := by
  rw [strscpy,strscpyl_fits (by simpa using h)]
  simp

theorem strscpy_eq {size : ℕ} (h : 0 < size) (s : CString) : strscpy size s = s.take (size-1) := by
  show (strpcpy ([],size) s).1 = s.take (size-1)
  by_cases hfull : s.length ≥ size
  · rw [strpcpy,if_pos hfull,List.nil_append]
  · rw [strpcpy,if_neg hfull,List.nil_append,List.take_of_length_le (by omega)]

/-- The digits at the start of the string as a number, with the rest of the string. -/
def digits (base : ℕ) (acc : ℕ) : CString → ℕ × CString
  | [] => (acc,[])
  | c::cs =>
    if chr '0' ≤ c ∧ c.toNat < (chr '0').toNat+base then
      digits base (acc*base + (c.toNat-(chr '0').toNat)) cs
    else (acc,c::cs)

/-- White space, a sign and digits: the sign, the magnitude and `endptr`. Without a
digit the end is the start of the string. -/
def number (base : ℕ) (s : CString) : Bool × ℕ × CString :=
  let t := s.dropWhile isspace
  let neg := charAt t 0 = chr '-'
  let u := if charAt t 0 = chr '-' ∨ charAt t 0 = chr '+' then t.drop 1 else t
  let r := digits base 0 u
  if r.2.length = u.length then (false,0,s) else (neg,r.1,r.2)

def strtoul (base : ℕ) (s : CString) : ℕ × CString :=
  let r := number base s
  if r.2.1 ≥ 2^64 then (2^64-1,r.2.2)
  else if r.1 then ((2^64-r.2.1) % 2^64,r.2.2) else (r.2.1,r.2.2)

def strtol (base : ℕ) (s : CString) : ℤ × CString :=
  let r := number base s
  if r.1 then (if r.2.1 > 2^63 then -2^63 else -r.2.1,r.2.2)
  else (if r.2.1 ≥ 2^63 then 2^63-1 else r.2.1,r.2.2)

/-- Conversion to a 32-bit `int`. -/
def toInt32 (z : ℤ) : ℤ := Int.bmod z (2^32)

def atoi (s : CString) : ℤ := toInt32 (strtol 10 s).1

def digitValue (c : UInt8) : ℕ :=
  if isdigit c then c.toNat-(chr '0').toNat
  else if chr 'a' ≤ c ∧ c ≤ chr 'f' then c.toNat-(chr 'a').toNat+10
  else if chr 'A' ≤ c ∧ c ≤ chr 'F' then c.toNat-(chr 'A').toNat+10
  else 16

def scanDigits (base : ℕ) (acc : ℕ) : CString → ℕ × CString
  | [] => (acc,[])
  | c::cs => if digitValue c < base then scanDigits base (acc*base+digitValue c) cs else (acc,c::cs)

/-- `"%x"` and `"%u"` of `sscanf`, with the rest of the string. -/
def scanUnsigned (base : ℕ) (s : CString) : Option (UInt32 × CString) :=
  let t := s.dropWhile isspace
  let neg := charAt t 0 = chr '-'
  let t := if charAt t 0 = chr '-' ∨ charAt t 0 = chr '+' then t.drop 1 else t
  let zero := base = 16 ∧ charAt t 0 = chr '0' ∧ (charAt t 1 = chr 'x' ∨ charAt t 1 = chr 'X')
  let t := if zero then t.drop 2 else t
  let r := scanDigits base 0 t
  if r.2.length = t.length ∧ ¬zero then none
  else if r.1 ≥ 2^64 then some (.ofNat (2^64-1),r.2)
  else some (.ofNat (if neg then (2^64-r.1) % 2^64 else r.1),r.2)

def scanChar (c : UInt8) (s : CString) : Option CString := if charAt s 0 = c then some (s.drop 1) else none

/-- `"%d"` of `sscanf`, with the rest of the string. -/
def scanSigned (s : CString) : Option (ℤ × CString) :=
  let r := strtol 10 s
  if r.2.length = s.length then none else some (toInt32 r.1,r.2)

/-- `strtoul` with the base of a C literal, or with base 16. -/
def strtoulLiteral (base : ℕ) (s : CString) : ℕ × CString :=
  let t := s.dropWhile isspace
  let neg := charAt t 0 = chr '-'
  let t := if charAt t 0 = chr '-' ∨ charAt t 0 = chr '+' then t.drop 1 else t
  let hex := charAt t 0 = chr '0' ∧ (charAt t 1 = chr 'x' ∨ charAt t 1 = chr 'X') ∧ digitValue (charAt t 2) < 16
  let base := if base = 16 ∨ hex then 16 else if charAt t 0 = chr '0' then 8 else 10
  let t := if hex then t.drop 2 else t
  let r := scanDigits base 0 t
  if r.2.length = t.length then (0,s)
  else if r.1 ≥ 2^64 then (2^64-1,r.2)
  else (if neg then (2^64-r.1) % 2^64 else r.1,r.2)

def parseUint (s : CString) : Option ℕ :=
  if s.all isdigit then some (s.foldl (fun v c => (v*10 + (c.toNat-(chr '0').toNat)) % 2^32) 0) else none

/-- At most `n` bytes up to the end of a line, and what is left of the file. -/
def takeLine : ℕ → List UInt8 → List UInt8 × List UInt8
  | 0, s => ([],s)
  | _+1, [] => ([],[])
  | n+1, c::cs =>
    if c = chr '\n' then ([c],cs)
    else
      let r := takeLine n cs
      (c::r.1,r.2)

/-- `fgets`; the line is read as the C string that the buffer then holds. -/
def fgets (size : ℕ) (s : List UInt8) : Option (CString × List UInt8) :=
  if s = [] then none
  else
    let r := takeLine (size-1) s
    some (r.1.takeWhile (· ≠ 0),r.2)

theorem takeLine_line {line : List UInt8} {n : ℕ} (h : line.length+1 ≤ n) (hline : chr '\n' ∉ line)
    (rest : List UInt8) : takeLine n (line ++ chr '\n'::rest) = (line ++ [chr '\n'],rest) := by
  induction line generalizing n with
  | nil =>
    obtain ⟨n,rfl⟩ : ∃ m, n = m+1 := ⟨n-1,by simp at h; omega⟩
    rfl
  | cons c line ih =>
    obtain ⟨n,rfl⟩ : ∃ m, n = m+1 := ⟨n-1,by simp at h; omega⟩
    rw [List.mem_cons,not_or] at hline
    rw [List.cons_append,takeLine,if_neg (Ne.symm hline.1),ih (by simp at h; omega) hline.2]
    rfl

theorem fgets_line {line : List UInt8} {size : ℕ} (h : line.length+1 < size) (hline : chr '\n' ∉ line)
    (hnul : 0 ∉ line) (rest : List UInt8) :
    fgets size (line ++ chr '\n'::rest) = some (line ++ [chr '\n'],rest) := by
  have hne : line ++ chr '\n'::rest ≠ [] := by simp
  have hbytes : (line ++ [chr '\n']).takeWhile (· ≠ 0) = line ++ [chr '\n'] := by
    refine List.takeWhile_eq_self_iff.mpr ?_
    intro c hc
    rcases List.mem_append.mp hc with hc | hc
    · simp only [decide_eq_true_eq]
      rintro rfl
      exact hnul hc
    · rw [List.mem_singleton.mp hc]
      decide
  simp only [fgets,if_neg hne,takeLine_line (by omega : line.length+1 ≤ size-1) hline,hbytes]

/-- `util_remove_trailing_chars`. -/
def removeTrailing (p : UInt8 → Bool) (s : CString) : CString := (s.reverse.dropWhile p).reverse

def utf8EncodedExpectedLen (c : UInt8) : ℕ :=
  if c < 0x80 then 1
  else if c &&& 0xe0 = 0xc0 then 2
  else if c &&& 0xf0 = 0xe0 then 3
  else if c &&& 0xf8 = 0xf0 then 4
  else if c &&& 0xfc = 0xf8 then 5
  else if c &&& 0xfe = 0xfc then 6
  else 0

def continuation (acc : ℕ) : List UInt8 → Option ℕ
  | [] => some acc
  | c::cs => if c &&& 0xc0 ≠ 0x80 then none else continuation (acc*64 + c.toNat%64) cs

/-- `utf8_encoded_to_unichar` for a string of a sequence that is longer than one byte. -/
def utf8EncodedToUnichar (s : CString) : Option ℕ :=
  let len := utf8EncodedExpectedLen (charAt s 0)
  continuation ((charAt s 0).toNat % 2^(7-len)) ((List.range (len-1)).map fun i => charAt s (i+1))

def utf8UnicharToEncodedLen (u : ℕ) : ℕ :=
  if u < 0x80 then 1
  else if u < 0x800 then 2
  else if u < 0x10000 then 3
  else if u < 0x200000 then 4
  else if u < 0x4000000 then 5
  else 6

def isUnicodeValid (u : ℕ) : Bool :=
  u < 0x110000 ∧ u / 0x800 ≠ 0xd800 / 0x800 ∧ ¬(0xfdd0 ≤ u ∧ u ≤ 0xfdef) ∧ u % 0x10000 / 2 ≠ 0x7fff

/-- `utf8_encoded_valid_unichar`; an invalid sequence has length 0. -/
def utf8EncodedValidUnichar (s : CString) : ℕ :=
  let len := utf8EncodedExpectedLen (charAt s 0)
  if len ≤ 1 then len
  else if (List.range len).any fun i => charAt s i &&& 0x80 ≠ 0x80 then 0
  else
    match utf8EncodedToUnichar s with
    | none => 0
    | some u => if utf8UnicharToEncodedLen u ≠ len ∨ ¬isUnicodeValid u then 0 else len

def whitelistedCharForDevnode (c : UInt8) (white : Option CString) : Bool :=
  isdigit c || (chr 'A' ≤ c && c ≤ chr 'Z') || (chr 'a' ≤ c && c ≤ chr 'z') ||
    (strchr (str "#+-.:=@_") c).isSome || (white.any fun w => (strchr w c).isSome)

/-- `util_replace_chars`; the first argument counts the bytes that are passed over. -/
def replaceChars (white : Option CString) : ℕ → CString → CString
  | _, [] => []
  | n+1, c::cs => c::replaceChars white n cs
  | 0, c::cs =>
    if whitelistedCharForDevnode c white then c::replaceChars white 0 cs
    else if c = chr '\\' ∧ charAt cs 0 = chr 'x' then c::replaceChars white 1 cs
    else if utf8EncodedValidUnichar (c::cs) > 1 then
      c::replaceChars white (utf8EncodedValidUnichar (c::cs)-1) cs
    else if isspace c ∧ (white.any fun w => (strchr w (chr ' ')).isSome) then
      chr ' '::replaceChars white 0 cs
    else chr '_'::replaceChars white 0 cs

def utilReplaceChars (s : CString) (white : Option CString) : CString := replaceChars white 0 s

def udevAllowedCharsInput : CString := str "/ $%?,"

example : utilReplaceChars (str "a b\t#*") (some (str "/ ")) = str "a b #_" := by decide

example : strtoul 10 (str " 12x") = (12,str "x") ∧ strtol 8 (str "-10") = (-8,[]) := by decide

end Text
end Udev
