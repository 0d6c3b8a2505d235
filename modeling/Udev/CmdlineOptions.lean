import Udev.Text
import Udev.WordTails

/-! The options of the daemon on the kernel command line. The line is read, but its reader returns zero for
success, which the daemon takes for nothing to do. -/
namespace Udev
namespace CmdlineOptions

open CString Text WordTails

structure Daemon where
  childrenMax : ℤ
  execDelay : ℤ
  eventTimeoutUsec : ℕ
  logMaxLevel : ℤ
  logPriority : ℤ

section Code

def whitespace : CString := str " \t\n\r"

def newline : CString := str "\n\r"

/-- `strchr` for one of some characters. -/
def isIn (set : CString) (c : UInt8) : Bool := (strchr set c).isSome

/-- `read_one_line_file` with what `open` gives: a negative number for an error, and the line. -/
def readOneLineFile (file : Except ℤ (List UInt8)) : ℤ × CString :=
  match file with
  | .error errno => (-errno,[])
  | .ok content =>
    let t := match fgets 2048 content with
      | none => []
      | some (line,_) => line
    (0,t.takeWhile fun c => !isIn newline c)

def strcspnEscaped (reject : CString) : Bool → ℕ → CString → ℕ
  | escaped, n, [] => n-escaped.toNat
  | true, n, _::s => strcspnEscaped reject false (n+1) s
  | false, n, c::s =>
    if c = chr '\\' then strcspnEscaped reject true (n+1) s
    else if isIn reject c then n
    else strcspnEscaped reject false (n+1) s

/-- `split` with `quoted`: a word, if there is one, and the state behind it. It does not return where the
assertion about the right quote fails. -/
def splitQuoted (separator state : CString) : Option (Option (CString × CString)) :=
  match state.dropWhile (isIn separator) with
  | [] => some none
  | c::s =>
    if isIn (str "'\"") c then
      let l := strcspnEscaped [c] false 0 s
      if charAt s l = 0 ∨ charAt s (l+1) ≠ 0 ∧ ¬isIn separator (charAt s (l+1)) then some none
      else if charAt s l ≠ c then none
      else some (some (s.take l,s.drop (l+1)))
    else
      let l := strcspnEscaped separator false 0 (c::s)
      some (some ((c::s).take l,(c::s).drop l))

def utilLogPriority (priority : CString) : ℤ :=
  let r := strtol 10 priority
  if charAt r.2 0 = 0 ∨ isspace (charAt r.2 0) then toInt32 r.1
  else if startswith priority (str "err") then 3
  else if startswith priority (str "info") then 6
  else if startswith priority (str "debug") then 7
  else 0

def Daemon.setLog (d : Daemon) (value : CString) : Daemon :=
  let prio := utilLogPriority value
  if prio < 0 then d else { d with logMaxLevel := prio, logPriority := prio }

/-- The loop body of `kernel_cmdline_options`. -/
def applyWord (d : Daemon) (opt : CString) : Daemon :=
  if startswith opt (str "udev.log-priority=") then d.setLog (opt.drop 18)
  else if startswith opt (str "udev.children-max=") then
    { d with childrenMax := toInt32 (strtoulLiteral 0 (opt.drop 18)).1 }
  else if startswith opt (str "udev.exec-delay=") then
    { d with execDelay := toInt32 (strtoulLiteral 0 (opt.drop 16)).1 }
  else if startswith opt (str "udev.event-timeout=") then
    { d with eventTimeoutUsec := (strtoulLiteral 0 (opt.drop 16)).1*1000000 % 2^64 }
  else d

/-- The loop of `kernel_cmdline_options`, if it returns. -/
def processWords : ℕ → CString → Daemon → Option Daemon
  | 0, _, _ => none
  | fuel+1, state, d =>
    match splitQuoted whitespace state with
    | none => none
    | some none => some d
    | some (some (word,state)) => processWords fuel state (applyWord d word)

def kernelCmdlineOptions (fuel : ℕ) (file : Except ℤ (List UInt8)) (d : Daemon) : Option Daemon :=
  let r := readOneLineFile file
  if r.1 ≤ 0 then some d else processWords fuel r.2 d

end Code

section Options

def wordsOfLine (line : CString) : List CString := words (isIn whitespace) line

def valuesOf (key : CString) (ws : List CString) : List CString :=
  (ws.filter fun w => startswith w key).map (·.drop key.length)

def numberWritten (value : CString) : ℕ := (strtoulLiteral 0 value).1

def lastOr {α : Type} (read : CString → α) (old : α) (values : List CString) : α :=
  values.getLast?.elim old read

def lastPriority (old : ℤ) (values : List CString) : ℤ :=
  ((values.map utilLogPriority).filter fun prio => 0 ≤ prio).getLast?.getD old

/-- The daemon has what the last word of each option says, and the rest is as before. -/
structure Holds (ws : List CString) (d d' : Daemon) : Prop where
  childrenMax : d'.childrenMax = lastOr (fun v => (numberWritten v : ℤ)) d.childrenMax (valuesOf (str "udev.children-max=") ws)
  execDelay : d'.execDelay = lastOr (fun v => (numberWritten v : ℤ)) d.execDelay (valuesOf (str "udev.exec-delay=") ws)
  eventTimeoutUsec : d'.eventTimeoutUsec =
    lastOr (fun v => numberWritten v*1000000) d.eventTimeoutUsec (valuesOf (str "udev.event-timeout=") ws)
  logMaxLevel : d'.logMaxLevel = lastPriority d.logMaxLevel (valuesOf (str "udev.log-priority=") ws)
  logPriority : d'.logPriority = lastPriority d.logPriority (valuesOf (str "udev.log-priority=") ws)

/-- The last word of each option has the number that is there already. -/
structure SetAlready (ws : List CString) (d : Daemon) : Prop where
  childrenMax : ∀ v ∈ (valuesOf (str "udev.children-max=") ws).getLast?, (numberWritten v : ℤ) = d.childrenMax
  execDelay : ∀ v ∈ (valuesOf (str "udev.exec-delay=") ws).getLast?, (numberWritten v : ℤ) = d.execDelay
  eventTimeoutUsec : ∀ v ∈ (valuesOf (str "udev.event-timeout=") ws).getLast?, numberWritten v*1000000 = d.eventTimeoutUsec
  logPriority : ∀ prio ∈ (((valuesOf (str "udev.log-priority=") ws).map utilLogPriority).filter fun prio => 0 ≤ prio).getLast?,
    prio = d.logMaxLevel ∧ prio = d.logPriority

theorem lastOr_self {α : Type} (read : CString → α) (old : α) (values : List CString) :
    old = lastOr read old values ↔ ∀ v ∈ values.getLast?, read v = old := by
  rw [lastOr]
  cases values.getLast? with
  | none => simp
  | some v => simp [eq_comm]

theorem lastPriority_self (old : ℤ) (values : List CString) :
    old = lastPriority old values ↔
      ∀ prio ∈ ((values.map utilLogPriority).filter fun prio => 0 ≤ prio).getLast?, prio = old := by
  rw [lastPriority]
  cases ((values.map utilLogPriority).filter fun prio => 0 ≤ prio).getLast? with
  | none => simp
  | some prio => simp [eq_comm]

theorem holds_self (ws : List CString) (d : Daemon) : Holds ws d d ↔ SetAlready ws d := by
  constructor
  · intro h
    have hlevel := (lastPriority_self _ _).mp h.logMaxLevel
    have hprio := (lastPriority_self _ _).mp h.logPriority
    exact ⟨(lastOr_self _ _ _).mp h.childrenMax,(lastOr_self _ _ _).mp h.execDelay,(lastOr_self _ _ _).mp h.eventTimeoutUsec,
      fun prio hmem => ⟨hlevel prio hmem,hprio prio hmem⟩⟩
  · intro h
    exact ⟨(lastOr_self _ _ _).mpr h.childrenMax,(lastOr_self _ _ _).mpr h.execDelay,(lastOr_self _ _ _).mpr h.eventTimeoutUsec,
      (lastPriority_self _ _).mpr fun prio hmem => (h.logPriority prio hmem).1,
      (lastPriority_self _ _).mpr fun prio hmem => (h.logPriority prio hmem).2⟩

end Options

theorem readOneLineFile_ok (content : List UInt8) : (readOneLineFile (.ok content)).1 = 0 := rfl

/-- The options of the command line are taken if and only if they are set already: no word is looked at. -/
theorem kernel_cmdline_options (fuel : ℕ) (content : List UInt8) (d : Daemon) :
    (∃ d', kernelCmdlineOptions fuel (.ok content) d = some d' ∧ Holds (wordsOfLine content) d d') ↔
      SetAlready (wordsOfLine content) d := by
  have hrun : kernelCmdlineOptions fuel (.ok content) d = some d := by
    rw [kernelCmdlineOptions]
    exact if_pos (Int.le_of_eq (readOneLineFile_ok content))
  rw [← holds_self,hrun]
  exact ⟨fun ⟨d',hd,hholds⟩ => Option.some_inj.mp hd ▸ hholds,fun h => ⟨d,rfl,h⟩⟩

theorem kernel_cmdline_options_children : ¬∀ (fuel : ℕ) (content : List UInt8) (d : Daemon),
    (∀ c ∈ content, c ≠ chr '\'' ∧ c ≠ chr '"' ∧ c ≠ chr '\\') →
    ∃ d', kernelCmdlineOptions fuel (.ok content) d = some d' ∧ Holds (wordsOfLine content) d d' := by
  intro hall
  obtain ⟨d',hrun,hholds⟩ := hall 3 (str "ro udev.children-max=4\n") ⟨0,0,60000000,3,3⟩ (by decide +kernel)
  have hsame : d' = ⟨0,0,60000000,3,3⟩ := (Option.some_inj.mp hrun).symm
  have hmax := hholds.childrenMax
  have hlast : lastOr (fun v => (numberWritten v : ℤ)) 0
      (valuesOf (str "udev.children-max=") (wordsOfLine (str "ro udev.children-max=4\n"))) = 4 := by decide +kernel
  rw [hsame,hlast] at hmax
  cases hmax

end CmdlineOptions
end Udev
