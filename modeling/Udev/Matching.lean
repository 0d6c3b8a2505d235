import Udev.Event

/-! The match tokens of `udev_rules_apply_to_event`. A match succeeds or fails; some of
them also change the event: a program leaves its result, an import adds properties. -/
namespace Udev
namespace Rules

open CString RuleLine Text

inductive Escape
  | unset | none | replace
  deriving DecidableEq, Repr

structure State (σ : Type) where
  event : Event
  esc : Escape := .unset
  host : σ

variable {σ : Type} (h : Host σ)

/-- The text of a value, and the state after it was expanded. -/
def State.format (st : State σ) (src : CString) (size : ℕ) : CString × State σ :=
  let r := applyFormat h st.host st.event src size
  (r.1,{ st with event := st.event.touch r.2 })

def splitBar : ℕ → CString → List CString
  | 0, _ => []
  | n+1, s =>
    match strchr s (chr '|') with
    | none => [s]
    | some rest => s.takeWhile (· ≠ chr '|')::splitBar n (rest.drop 1)

def alternatives (s : CString) : List CString := splitBar (s.length+1) s

/-- Whether the text matches the value of the token, whatever its operator. -/
def matchValue (k : KeyToken) (val : CString) : Bool :=
  match k.glob with
  | .plain => k.value = val
  | .glob => h.fnmatch k.value val
  | .split => (alternatives k.value).any (· = val)
  | .splitGlob => (alternatives (strscpy utilPathSize k.value)).any (h.fnmatch · val)
  | .something => val ≠ []
  | .unset => false

def matchKey (k : KeyToken) (val : Option CString) : Bool :=
  k.glob ≠ .unset &&
    if matchValue h k (val.getD []) then k.op = .opMatch else k.op = .opNomatch

/-- The value of an attribute is compared without trailing white space unless the rule
asks for it. The copy is as long as a name, but the loop that cuts it starts at the
length of the value: a longer value is only cut to the size of the copy. -/
def attrText (k : KeyToken) (value : CString) : CString :=
  if value ≠ [] ∧ isspace (value.getLastD 0) ∧ k.value ≠ [] ∧ ¬isspace (k.value.getLastD 0) then
    if value.length < utilNameSize then removeTrailing isspace value else strscpy utilNameSize value
  else value

def matchAttr (s : σ) (ev : Event) (dev : Device) (k : KeyToken) : Bool × Bool :=
  match k.attrsubst with
  | .format =>
    let r := applyFormat h s ev k.attr utilNameSize
    ((h.sysattrValue s dev.syspath r.1).any fun v => matchKey h k (some (attrText k v)),r.2)
  | .none => ((h.sysattrValue s dev.syspath k.attr).any fun v => matchKey h k (some (attrText k v)),false)
  | .subsys =>
    ((resolveSubsysKernel h s k.attr utilNameSize true).any fun v => matchKey h k (some (attrText k v)),false)
  | .unset => (false,false)

/-- The loop of `wait_for_file`. -/
def waitLoop (devicepath file : CString) : ℕ → σ → Bool × σ
  | 0, s => (false,s)
  | n+1, s =>
    if (h.stat s file).isSome then (true,s)
    else if devicepath ≠ [] ∧ (h.stat s devicepath).isNone then (false,s)
    else waitLoop devicepath file n (h.nanosleep s)

/-- `wait_for_file` with ten seconds returns 0: `--loop` leaves one round less than 500. -/
def waitForFile (dev : Device) (file : CString) (s : σ) : Bool × σ :=
  let devicepath := if charAt file 0 ≠ chr '/' then strscpy utilPathSize dev.syspath else []
  let file :=
    if charAt file 0 ≠ chr '/' then strscpyl utilPathSize [devicepath,str "/",file] else file
  waitLoop h devicepath file 499 s

/-- The first entry of the directory for which the path exists, else the last one tried. -/
def subdirLoop (s : σ) (size : ℕ) (dirname tail : CString) : CString → List CString → CString
  | attr, [] => attr
  | attr, d::ds =>
    if charAt d 0 = chr '.' then subdirLoop s size dirname tail attr ds
    else
      let attr := strscpyl size [dirname,str "/",d,tail]
      if (h.stat s attr).isSome then attr else subdirLoop s size dirname tail attr ds

def attrSubstSubdir (s : σ) (attr : CString) (size : ℕ) : CString :=
  let dirname := strscpy utilPathSize attr
  match strstr dirname (str "/*/") with
  | none => attr
  | some pos =>
    let dir := dirname.take (dirname.length-pos.length)
    subdirLoop h s size dir (pos.drop 2) attr ((h.readdir s dir).getD [])

def testPath (s : σ) (dev : Device) (filename : CString) : CString :=
  let path := (resolveSubsysKernel h s filename utilPathSize false).getD
    (if charAt filename 0 ≠ chr '/' then
      strscpyl utilPathSize [dev.syspath,str "/",strscpy utilPathSize filename]
     else filename)
  attrSubstSubdir h s path utilPathSize

/-- One property of an import; without a value it is removed. -/
structure Imported where
  key : CString
  value : Option CString
  stored : Bool
  deriving DecidableEq, Repr

def imported (key : CString) (value : Option CString) : Imported := ⟨key,value,charAt key 0 ≠ chr '.'⟩

def importOne (d : Device) (i : Imported) : Device :=
  match i.value with
  | none => d.deleteProperty i.key
  | some value =>
    let d := d.setProperty i.key value
    if i.stored then d.markStored i.key else d

def importAll (l : List Imported) (d : Device) : Device := l.foldl importOne d

/-- `import_property_from_string`. -/
def importLine (line : CString) : Option Imported :=
  let key := line.dropWhile isspace
  if charAt key 0 = chr '#' ∨ key = [] then none
  else
    (strchr key (chr '=')).bind fun rest =>
      let name := removeTrailing isspace (key.takeWhile (· ≠ chr '='))
      let val := removeTrailing isspace ((rest.drop 1).dropWhile isspace)
      if name = [] ∨ val = [] then none
      else if charAt val 0 = chr '"' ∨ charAt val 0 = chr '\'' then
        if val.getLastD 0 ≠ charAt val 0 then none
        else some (imported name (some (val.drop 1).dropLast))
      else some (imported name (some val))

/-- The lines that `fgets` reads from a file. -/
def readLines : ℕ → List UInt8 → List CString
  | 0, _ => []
  | n+1, content =>
    match fgets utilLineSize content with
    | none => []
    | some (line,rest) => line::readLines n rest

def outputLines : ℕ → CString → List CString
  | 0, _ => []
  | n+1, s =>
    match strchr s (chr '\n') with
    | none => [s]
    | some rest => s.takeWhile (· ≠ chr '\n')::outputLines n (rest.drop 1)

/-- `import_file_into_properties`. -/
def fileImports (s : σ) (filename : CString) : Option (List Imported) :=
  (h.readFile s filename).map fun content => (readLines content.length content).filterMap importLine

/-- `import_parent_into_properties`. -/
def parentImports (ev : Event) (filter : CString) : Option (List Imported) :=
  ev.parents.head?.map fun p =>
    (p.sync.propertiesList.filter fun e => h.fnmatch filter e.name).map fun e => imported e.name e.value

/-- A word of the kernel command line, as a flag or with a value. -/
def cmdlineImports (s : σ) (key : CString) : Option (List Imported) :=
  (h.readFile s (str "/proc/cmdline")).bind fun content =>
    (fgets 4096 content).bind fun line =>
      (option line.1 key).bind fun pos =>
        if pos = [] ∨ isspace (charAt pos 0) then some [⟨key,some (str "1"),true⟩]
        else if charAt pos 0 = chr '=' then
          some [⟨key,some ((pos.drop 1).takeWhile fun c => !isspace c),true⟩]
        else none

/-- What an import brings: the properties in their order, whether it succeeds, and the
state without them. -/
structure Import (σ : Type) where
  list : List Imported
  ok : Bool
  state : State σ

def Import.of (r : Option (List Imported)) (st : State σ) : Import σ := ⟨r.getD [],r.isSome,st⟩

/-- A program of an import or a PROGRAM key with the environment of the device. -/
def spawn (st : State σ) (program : CString) : Option CString × State σ :=
  let e := st.event.dev.propertiesEnvp
  let r := h.spawn st.host program e.1
  (r.output,
   { st with event := { st.event with dev := e.2, sigterm := st.event.sigterm || r.sigterm }
             host := r.host })

/-- `IMPORT{program}` with `import_program_into_properties`. -/
def importProgram (st : State σ) (k : KeyToken) : Import σ :=
  let f := st.format h k.value utilPathSize
  let r := spawn h f.2 f.1
  .of (r.1.map fun out => (outputLines (out.length+1) out).filterMap importLine) r.2

def runBuiltin (st : State σ) (k : KeyToken) : Import σ :=
  let f := st.format h k.value utilPathSize
  let ev := f.2.event
  let r := h.builtinRun f.2.host ev.dev ev.parents k.builtinCmd f.1
  let ev := ev.touch r.touched
  let ev := if r.ok then ev else { ev with builtinRet := k.builtinCmd::ev.builtinRet }
  ⟨r.added.map fun a => imported a.1 (some a.2),r.ok,{ f.2 with event := ev, host := r.host }⟩

/-- `IMPORT{builtin}`; a command that runs once gives its earlier result again. -/
def importBuiltin (st : State σ) (k : KeyToken) : Import σ :=
  if k.builtinCmd.runOnce then
    if k.builtinCmd ∈ st.event.builtinRun then ⟨[],k.builtinCmd ∉ st.event.builtinRet,st⟩
    else
      runBuiltin h
        { st with event := { st.event with builtinRun := k.builtinCmd::st.event.builtinRun } } k
  else runBuiltin h st k

/-- `IMPORT{db}` reads the device as it was before the event. -/
def importDb (st : State σ) (k : KeyToken) : Import σ :=
  let value := st.event.devDb.bind (·.propertyValue k.value)
  .of (value.map fun v => [⟨k.value,some v,true⟩])
    { st with event := { st.event with devDb := st.event.devDb.map Device.sync } }

/-- The import of a token; `none` for the other tokens. -/
def importOf (st : State σ) (k : KeyToken) : Option (Import σ) :=
  match k.type with
  | .mImportFile =>
    let f := st.format h k.value utilPathSize
    some (.of (fileImports h f.2.host f.1) f.2)
  | .mImportProg => some (importProgram h st k)
  | .mImportBuiltin => some (importBuiltin h st k)
  | .mImportDb => some (importDb st k)
  | .mImportCmdline => some (.of (cmdlineImports h st.host k.value) st)
  | .mImportParent =>
    let f := st.format h k.value utilPathSize
    some (.of (parentImports h f.2.event f.1) f.2)
  | _ => none

def Import.result (i : Import σ) : State σ :=
  { i.state with event := { i.state.event with dev := importAll i.list i.state.event.dev } }

/-- `PROGRAM`: it matches when the program succeeds, or for `!=` when it fails. -/
def matchProgram (st : State σ) (k : KeyToken) : Bool × State σ :=
  let f := { st with event := { st.event with programResult := none } }.format h k.value utilPathSize
  let r := spawn h f.2 f.1
  match r.1 with
  | none => (k.op = .opNomatch,r.2)
  | some out =>
    let out := removeTrailing (· = chr '\n') out
    let out := if st.esc = .none then out else utilReplaceChars out (some udevAllowedCharsInput)
    (k.op ≠ .opNomatch,{ r.2 with event := { r.2.event with programResult := some out } })

/-- The match tokens except those on parents. -/
def matchToken (st : State σ) (k : KeyToken) : Bool × State σ :=
  let dev := st.event.dev
  match k.type with
  | .mAction => (matchKey h k (dev.action.map Action.name),st)
  | .mDevpath => (matchKey h k (some dev.devpath),st)
  | .mKernel => (matchKey h k (some dev.sysname),st)
  | .mDevlink => (dev.devlinksList.any fun e => matchKey h k (some (devName e.name)),st)
  | .mName => (matchKey h k st.event.name,st)
  | .mEnv => (matchKey h k (dev.propertyValue k.attr),{ st with event := st.event.touch true })
  | .mTag => (dev.tagsList.any (fun e => k.value = e.name) || k.op = .opNomatch,st)
  | .mSubsystem => (matchKey h k dev.subsystem,st)
  | .mDriver => (matchKey h k dev.driver,st)
  | .mWaitfor =>
    let f := st.format h k.value utilPathSize
    let r := waitForFile h dev f.1 f.2.host
    (r.1 || k.op = .opNomatch,{ f.2 with host := r.2 })
  | .mAttr =>
    let r := matchAttr h st.host st.event dev k
    (r.1,{ st with event := st.event.touch r.2 })
  | .mTest =>
    let f := st.format h k.value utilPathSize
    let found := (h.stat st.host (testPath h st.host dev f.1)).any fun stats =>
      k.num ≤ 0 || 0 < (stats.mode &&& k.num.toNat)
    (if found then k.op ≠ .opNomatch else k.op ≠ .opMatch,f.2)
  | .mProgram => matchProgram h st k
  | .mResult => (matchKey h k st.event.programResult,st)
  | _ =>
    match importOf h st k with
    | some i => (i.ok || k.op = .opNomatch,i.result)
    | none => (false,st)

end Rules
end Udev
