import Udev.CString

/-! One line of a rules file. `get_key` cuts the next key, operator and value out of
the line buffer, which it edits in place: it terminates the key where the key ends
and decodes the value over itself. A pointer is an index into the buffer. -/
namespace Udev
namespace RuleLine

open CString

/-- `enum operation_type`. -/
inductive Op
  | opUnset | opMatch | opNomatch | opAdd | opAssign | opAssignFinal
  deriving DecidableEq, Repr

namespace Op

/-- Less than `OP_MATCH_MAX`, for an operator of a line. -/
def isMatch : Op → Bool
  | opMatch | opNomatch => true
  | _ => false

def text : Op → CString
  | opUnset => []
  | opMatch => str "=="
  | opNomatch => str "!="
  | opAdd => str "+="
  | opAssign => str "="
  | opAssignFinal => str ":="

end Op

def cstr (buf : List UInt8) (i : ℕ) : CString := (buf.drop i).takeWhile (· ≠ 0)

/-- `while (p(pos[0])) pos++`, for a test that the terminator fails. -/
def skip (p : UInt8 → Bool) (buf : List UInt8) (i : ℕ) : ℕ := i + ((buf.drop i).takeWhile p).length

/-- The loop of `parse_value`, with its state `len` and `val`. -/
def parseValueLoop (quote : UInt8) (str : ℕ) : ℕ → List UInt8 → ℕ → ℕ → List UInt8 × ℕ × ℕ
  | 0, buf, len, val => (buf,len,val)
  | n+1, buf, len, val =>
    if charAt buf (str+len) = 0 ∨ charAt buf (str+len) = quote then (buf,len,val)
    else
      let len := if charAt buf (str+len) = chr '\\' ∧ charAt buf (str+len+1) = quote then len+1 else len
      parseValueLoop quote str n (buf.set val (charAt buf (str+len))) (len+1) (val+1)

/-- The decoded value is written from `val` on; the result is the length that was read. -/
def parseValue (buf : List UInt8) (str val : ℕ) : Option (List UInt8 × ℕ) :=
  if charAt buf str ≠ chr '"' ∧ charAt buf str ≠ chr '\'' then none
  else
    let r := parseValueLoop (charAt buf str) str buf.length buf 1 val
    if charAt r.1 (str+r.2.1) = 0 then none else some (r.1.set r.2.2 0,r.2.1+1)

def keyLength : List UInt8 → Option ℕ
  | [] => none
  | c::cs =>
    if c = 0 then none
    else if isspace c ∨ c = chr '=' then some 0
    else if (c = chr '+' ∨ c = chr '!' ∨ c = chr ':') ∧ charAt cs 0 = chr '=' then some 0
    else (keyLength cs).map (·+1)

def operator (buf : List UInt8) (i : ℕ) : Option (Op × ℕ) :=
  if charAt buf i = chr '=' ∧ charAt buf (i+1) = chr '=' then some (.opMatch,2)
  else if charAt buf i = chr '!' ∧ charAt buf (i+1) = chr '=' then some (.opNomatch,2)
  else if charAt buf i = chr '+' ∧ charAt buf (i+1) = chr '=' then some (.opAdd,2)
  else if charAt buf i = chr '=' then some (.opAssign,1)
  else if charAt buf i = chr ':' ∧ charAt buf (i+1) = chr '=' then some (.opAssignFinal,2)
  else none

/-- What `get_key` stores through its arguments, and the buffer it leaves. -/
structure Found where
  buf : List UInt8
  line : ℕ
  key : ℕ
  op : Op
  value : ℕ
  deriving DecidableEq, Repr

def getKey (buf : List UInt8) (line : ℕ) : Option Found := do
  if charAt buf line = 0 then none
  let key := skip (fun c => isspace c || c == chr ',') buf line
  if charAt buf key = 0 then none
  let len ← keyLength (buf.drop (key+1))
  let temp := key+1+len
  let pos := skip isspace buf temp
  if charAt buf pos = 0 then none
  let op ← operator buf pos
  let buf := buf.set temp 0
  let pos := skip isspace buf (pos+op.2)
  if charAt buf pos = 0 then none
  if charAt buf pos ≠ chr '"' then none
  let r ← parseValue buf pos (pos+1)
  some { buf := r.1, line := pos+r.2, key := key, op := op.1, value := pos+1 }

/-- The state of repeated calls: the buffer, where the line goes on, and what was
returned so far. -/
structure Scan where
  buf : List UInt8
  line : ℕ := 0
  found : List Found := []
  deriving DecidableEq, Repr

def getKeys : ℕ → Scan → Option Scan
  | 0, s => some s
  | n+1, s => (getKey s.buf s.line).bind fun r =>
    getKeys n { buf := r.buf, line := r.line, found := s.found ++ [r] }

def Scan.triples (s : Scan) : List (CString × Op × CString) :=
  s.found.map fun r => (cstr s.buf r.key,r.op,cstr s.buf r.value)

example : ((getKeys 2 { buf := str "A==\"b\\\"c\" , D += \"\"\n" }).map Scan.triples) =
    some [(str "A",.opMatch,str "b\"c"),(str "D",.opAdd,[])] := by decide

end RuleLine
end Udev
