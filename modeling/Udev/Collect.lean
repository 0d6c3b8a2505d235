import Mathlib.Data.List.GetD
import Udev.CString
import Udev.Runs
import Udev.Words

/-! The `collect` helper: the words of a checkpoint file are read back over a buffer of two
halves, the members of a list are looked up among them, and those that are there are written
out again. -/
namespace Udev
namespace Collect

inductive CollectState where
  | stateNone
  | stateOld
  | stateConfirmed
deriving DecidableEq, Repr

structure Mate where
  name : CString
  state : CollectState
deriving DecidableEq, Repr

def BUFSIZE : ℕ := 16

def accept : CString := str " \n\t\r"

/-- `strpbrk(buf + word, " \n\t\r")` as an index. The last `NUL` of the buffer is the end of the list. -/
def strpbrk (buf : CString) (word : ℕ) : Option ℕ :=
  (((buf.drop word).takeWhile (· ≠ 0)).findIdx? (accept.contains ·)).map (word+·)

inductive Parsed where
  | overflow (bunch : List Mate)
  | parsed (buf : CString) (ptr word : Option ℕ) (bunch : List Mate)
deriving DecidableEq, Repr

theorem charAt_lt {buf : CString} {p : ℕ} (h : CString.charAt buf p ≠ 0) : p < buf.length := by
  by_contra hge
  exact h (List.getD_eq_default _ _ (Nat.le_of_not_lt hge))

theorem le_of_strpbrk {buf : CString} {p q : ℕ} (h : strpbrk buf p = some q) : p ≤ q := by
  obtain ⟨i,-,rfl⟩ := Option.map_eq_some_iff.mp h
  exact Nat.le_add_right p i

/-- `while (ptr && *ptr)`. -/
def parseWords (len : ℕ) (buf : CString) (ptr : ℕ) (word : Option ℕ) (bunch : List Mate) : Parsed :=
  if CString.charAt buf ptr = 0 then .parsed buf (some ptr) word bunch
  else
    match hq : strpbrk buf ptr with
    | none => if ptr < len then .overflow bunch else .parsed buf none (some ptr) bunch
    | some q =>
      let buf' := buf.set q 0
      let name := (buf'.drop ptr).takeWhile (· ≠ 0)
      if name.length = 0 then parseWords len buf' (q+1) (some ptr) bunch
      else parseWords len buf' (q+1) none (bunch ++ [⟨name,.stateOld⟩])
termination_by buf.length-ptr
decreasing_by
  all_goals
    have hlt := charAt_lt ‹¬CString.charAt buf ptr = 0›
    have hle := le_of_strpbrk hq
    simp only [List.length_set]
    omega

/-- `while (read(fd, buf + len, len) > 0)`; the words found, and whether one did not fit. -/
def readBlocks (len : ℕ) (buf : CString) (ptr : ℕ) (word : Option ℕ) (bunch : List Mate) (file : CString) :
    Bool × List Mate :=
  let block := file.take len
  if block.length = 0 then (true,bunch)
  else
    match parseWords len (buf.take len ++ block ++ buf.drop (len+block.length)) ptr word bunch with
    | .overflow bunch => (false,bunch)
    | .parsed buf ptr word bunch =>
      match ptr <|> word with
      | none => (true,bunch)
      | some ptr =>
        readBlocks len (buf.drop len ++ List.replicate len (chr ' ')) (ptr-len) word bunch (file.drop len)
termination_by file.length
decreasing_by
  have hread : ¬(file.take len).length = 0 := ‹_›
  rw [List.length_take] at hread
  rw [List.length_drop]
  omega

/-- From `restart` on. A restart keeps the words that were found. -/
def checkoutFrom : ℕ → ℕ → List Mate → CString → Option (List Mate)
  | 0, _, _, _ => none
  | fuel+1, bufsize, bunch, file =>
    let len := bufsize/2
    match readBlocks len (List.replicate bufsize (chr ' ')) len none bunch file with
    | (true,bunch) => some bunch
    | (false,bunch) => checkoutFrom fuel (bufsize*2) bunch file

def checkout (file : CString) : Option (List Mate) := checkoutFrom (file.length+1) BUFSIZE [] file

def invite (us : CString) (bunch : List Mate) : List Mate :=
  bunch.map fun him => if him.name = us then {him with state := .stateConfirmed} else him

def reject (us : CString) (bunch : List Mate) : List Mate :=
  bunch.map fun him => if him.name = us then {him with state := .stateNone} else him

def kickout (bunch : List Mate) : List Mate := bunch.filter (·.state ≠ .stateOld)

/-- The number of members that are missing, and the words written, each followed by a blank. -/
def missing (bunch : List Mate) : ℕ × List CString :=
  (bunch.countP (·.state = .stateNone),(bunch.filter (·.state ≠ .stateNone)).map (·.name))

/-- The file with the words that `missing` wrote. -/
def checkpoint (written : List CString) : CString := Words.text (chr ' ') written

/-- `who->state = STATE_CONFIRMED`, for the last mate of the name. -/
def confirm (id : CString) : List Mate → Option (List Mate)
  | [] => none
  | him::rest =>
    match confirm id rest with
    | some rest => some (him::rest)
    | none => if him.name = id then some ({him with state := .stateConfirmed}::rest) else none

/-- A member of the list is found in the database or appended as missing. -/
def lookup (bunch : List Mate) (id : CString) : List Mate := (confirm id bunch).getD (bunch ++ [⟨id,.stateNone⟩])

/-- The options of a run: `--add` or `--remove`, and the ID. -/
structure Run where
  prune : Bool
  us : CString
deriving DecidableEq, Repr

/-- A run of `main` on the words in the checkpoint file: the value returned and the words written. -/
def main (idlist : List CString) (r : Run) (written : List CString) : Option (ℕ × List CString) :=
  (checkout (checkpoint written)).map fun bunch =>
    let bunch := idlist.foldl lookup bunch
    let bunch := if r.prune then reject r.us bunch else invite r.us bunch
    missing (kickout bunch)

def step (idlist : List CString) (written : List CString) (r : Run) : Option (List CString) :=
  (main idlist r written).map (·.2)

end Collect
end Udev
