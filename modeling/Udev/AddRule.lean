import Udev.Token

/-! `add_rule`: one line of a rules file becomes a rule token and the sorted tokens of
its keys, or is refused. Each key of the line has an effect of its own on the
temporary rule; only the number of its tokens depends on what stands before it. -/
namespace Udev
namespace Rules

open CString RuleLine Text StableSort

structure Accounts where
  getpwnam : CString → Option ℕ
  getpwuid : ℕ → Bool
  getgrnam : CString → Option ℕ
  getgrgid : ℕ → Bool

def noAccounts : Accounts := ⟨fun _ => none,fun _ => false,fun _ => none,fun _ => false⟩

/-- `lookup_user` and `lookup_group`. -/
def lookupId (byName : CString → Option ℕ) (byId : ℕ → Bool) (name : CString) : Option ℕ :=
  if name = str "root" then some 0
  else
    match parseUint name with
    | some id => if byId id then some id else none
    | none => byName name

def lookupUser (a : Accounts) : CString → Option ℕ := lookupId a.getpwnam a.getpwuid

def lookupGroup (a : Accounts) : CString → Option ℕ := lookupId a.getgrnam a.getgrgid

structure Options where
  resolveNames : ℤ := 0
  accounts : Accounts

structure KeyPair where
  key : CString
  op : Op
  value : CString
  deriving DecidableEq, Repr

/-- One call of `get_key`: the pair and the text after it. -/
def nextPair (line : CString) : Option (KeyPair × CString) :=
  (getKey line 0).map fun r =>
    ({ key := cstr r.buf r.key, op := r.op, value := cstr r.buf r.value },r.buf.drop r.line)

/-- The pairs of a line up to the first call that fails; a call takes at least one byte. -/
def keyPairs : ℕ → CString → List KeyPair
  | 0, _ => []
  | n+1, line =>
    match nextPair line with
    | none => []
    | some (p,rest) => p::keyPairs n rest

def linePairs (line : CString) : List KeyPair := keyPairs line.length line

/-- What a key does to the temporary rule. Only an ENV key looks at the result of
`rule_add_key`. -/
structure KeyEffect where
  tokens : List KeyToken := []
  label : Option CString := none
  canSetName : Bool := false
  hasStaticNode : Bool := false
  checked : Bool := false
  deriving DecidableEq, Repr

def getKeyAttribute (s : CString) : Option CString :=
  (strchr s (chr '{')).bind fun a =>
    if (strchr (a.drop 1) (chr '}')).isSome then some ((a.drop 1).takeWhile (· ≠ chr '}')) else none

def oneKey (type : TokenType) (op : Op) (value : CString) (data : KeyData) : KeyEffect :=
  { tokens := [newKey type op (some value) data] }

def matchOnly (type : TokenType) (op : Op) (value : CString) (data : KeyData) : Option KeyEffect :=
  if op.isMatch then some (oneKey type op value data) else none

def matchOrAssign (mtype atype : TokenType) (op : Op) (value : CString) (data : KeyData) : KeyEffect :=
  oneKey (if op.isMatch then mtype else atype) op value data

def addSubsystem (op : Op) (value : CString) : Option KeyEffect :=
  if value = str "subsystem" ∨ value = str "bus" ∨ value = str "class" then
    matchOnly .mSubsystem op (str "subsystem|class|bus") .none
  else matchOnly .mSubsystem op value .none

def envBlacklist : List CString :=
  [str "ACTION",str "SUBSYSTEM",str "DEVTYPE",str "MAJOR",str "MINOR",str "DRIVER",str "IFINDEX",
   str "DEVNAME",str "DEVLINKS",str "DEVPATH",str "TAGS"]

def addEnv (op : Op) (value attr : CString) : Option KeyEffect :=
  if op.isMatch then some { oneKey .mEnv op value (.attr attr) with checked := true }
  else if attr ∈ envBlacklist then none
  else some { oneKey .aEnv op value (.attr attr) with checked := true }

/-- `IMPORT{...}`; an unknown type or command is ignored. -/
def addImport (op : Op) (value attr : CString) : KeyEffect :=
  if attr = str "program" then
    if charAt value 0 ≠ chr '/' ∧ BuiltinCmd.lookup value ≠ .max then
      oneKey .mImportBuiltin op value (.builtin (BuiltinCmd.lookup value))
    else oneKey .mImportProg op value .none
  else if attr = str "builtin" then
    if BuiltinCmd.lookup value ≠ .max then
      oneKey .mImportBuiltin op value (.builtin (BuiltinCmd.lookup value))
    else {}
  else if attr = str "file" then oneKey .mImportFile op value .none
  else if attr = str "db" then oneKey .mImportDb op value .none
  else if attr = str "cmdline" then oneKey .mImportCmdline op value .none
  else if attr = str "parent" then oneKey .mImportParent op value .none
  else {}

def addTest (op : Op) (value : CString) (attr : Option CString) : Option KeyEffect :=
  matchOnly .mTest op value (attr.elim .none fun a => .num ((strtol 8 a).1 % 2^32))

def addRun (op : Op) (value attr : CString) : KeyEffect :=
  if attr = str "builtin" then
    if BuiltinCmd.lookup value ≠ .max then oneKey .aRunBuiltin op value (.builtin (BuiltinCmd.lookup value))
    else {}
  else if attr = str "program" then oneKey .aRunProgram op value (.builtin .max)
  else {}

def addName (op : Op) (value : CString) : KeyEffect :=
  if op.isMatch then { oneKey .mName op value .none with canSetName := true }
  else if value = str "%k" then {}
  else if value = [] then {}
  else { oneKey .aName op value .none with canSetName := true }

/-- `OWNER` and `GROUP`: a number, a name that is resolved now, or one for later. -/
def addOwner (resolveNames : ℤ) (lookup : CString → Option ℕ) (idType type : TokenType) (op : Op)
    (value : CString) : KeyEffect :=
  let r := strtoul 10 value
  let tokens :=
    if r.2 = [] then [newKey idType op none (.num (r.1 % 2^32 : ℕ))]
    else if resolveNames > 0 ∧ charAt value 0 ≠ chr '$' ∧ charAt value 0 ≠ chr '%' then
      [newKey idType op none (.num ((lookup value).getD 0))]
    else if resolveNames ≥ 0 then [newKey type op (some value) .none]
    else []
  { tokens := tokens, canSetName := true }

def accessMode (s : CString) : ℤ := (strtol 8 s).1 % 0o1000

def addMode (op : Op) (value : CString) : KeyEffect :=
  { tokens :=
      if (strtol 8 value).2 = [] then [newKey .aModeId op none (.num (accessMode value))]
      else [newKey .aMode op (some value) .none]
    canSetName := true }

def option (value name : CString) : Option CString := (strstr value name).map (·.drop name.length)

def addOptions (op : Op) (value : CString) : KeyEffect :=
  { tokens :=
      ((option value (str "link_priority=")).elim [] fun s =>
        [newKey .aDevlinkPrio op none (.num (atoi s))]) ++
      ((option value (str "string_escape=")).elim [] fun s =>
        if startswith s (str "none") then [newKey .aStringEscapeNone op none .none]
        else if startswith s (str "replace") then [newKey .aStringEscapeReplace op none .none]
        else []) ++
      ((option value (str "db_persist")).elim [] fun _ => [newKey .aDbPersist op none .none]) ++
      (if (option value (str "nowatch")).isSome then [newKey .aInotifyWatch op none (.num 0)]
       else (option value (str "watch")).elim [] fun _ => [newKey .aInotifyWatch op none (.num 1)]) ++
      ((option value (str "static_node=")).elim [] fun s => [newKey .aStaticNode op (some s) .none])
    hasStaticNode := (option value (str "static_node=")).isSome }

/-- The chain of tests in the loop of `add_rule`; `none` makes the rule invalid. -/
def addKey (o : Options) (p : KeyPair) : Option KeyEffect :=
  let key := p.key
  let op := p.op
  let value := p.value
  if key = str "ACTION" then matchOnly .mAction op value .none
  else if key = str "DEVPATH" then matchOnly .mDevpath op value .none
  else if key = str "KERNEL" then matchOnly .mKernel op value .none
  else if key = str "SUBSYSTEM" then addSubsystem op value
  else if key = str "DRIVER" then matchOnly .mDriver op value .none
  else if startswith key (str "ATTR\x7b") then
    (getKeyAttribute (key.drop 4)).map fun a => matchOrAssign .mAttr .aAttr op value (.attr a)
  else if startswith key (str "SECLABEL\x7b") then
    (getKeyAttribute (key.drop 8)).map fun a => oneKey .aSeclabel op value (.attr a)
  else if key = str "KERNELS" then matchOnly .mKernels op value .none
  else if key = str "SUBSYSTEMS" then matchOnly .mSubsystems op value .none
  else if key = str "DRIVERS" then matchOnly .mDrivers op value .none
  else if startswith key (str "ATTRS\x7b") then
    (getKeyAttribute (key.drop 5)).bind fun a => matchOnly .mAttrs op value (.attr a)
  else if key = str "TAGS" then matchOnly .mTags op value .none
  else if startswith key (str "ENV\x7b") then (getKeyAttribute (key.drop 3)).bind (addEnv op value)
  else if key = str "TAG" then some (matchOrAssign .mTag .aTag op value .none)
  else if key = str "PROGRAM" then some (oneKey .mProgram op value .none)
  else if key = str "RESULT" then matchOnly .mResult op value .none
  else if startswith key (str "IMPORT") then
    some ((getKeyAttribute (key.drop 6)).elim {} (addImport op value))
  else if startswith key (str "TEST") then addTest op value (getKeyAttribute (key.drop 4))
  else if startswith key (str "RUN") then
    some (addRun op value ((getKeyAttribute (key.drop 3)).getD (str "program")))
  else if key = str "WAIT_FOR" ∨ key = str "WAIT_FOR_SYSFS" then
    some (oneKey .mWaitfor .opUnset value .none)
  else if key = str "LABEL" then some { label := some value }
  else if key = str "GOTO" then some (oneKey .aGoto .opUnset value .none)
  else if startswith key (str "NAME") then some (addName op value)
  else if key = str "SYMLINK" then
    some { matchOrAssign .mDevlink .aDevlink op value .none with canSetName := true }
  else if key = str "OWNER" then
    some (addOwner o.resolveNames (lookupUser o.accounts) .aOwnerId .aOwner op value)
  else if key = str "GROUP" then
    some (addOwner o.resolveNames (lookupGroup o.accounts) .aGroupId .aGroup op value)
  else if key = str "MODE" then some (addMode op value)
  else if key = str "OPTIONS" then some (addOptions op value)
  else none

def maxTk : ℕ := 64

structure RuleTmp where
  rule : RuleToken := {}
  token : List KeyToken := []
  deriving DecidableEq, Repr

def RuleTmp.apply (tmp : RuleTmp) (e : KeyEffect) : RuleTmp :=
  { rule :=
      { tmp.rule with
        canSetName := tmp.rule.canSetName || e.canSetName
        hasStaticNode := tmp.rule.hasStaticNode || e.hasStaticNode
        label := e.label.getD tmp.rule.label }
    token := tmp.token ++ e.tokens }

/-- One round of the loop of `add_rule`. -/
def addPair (o : Options) (tmp : RuleTmp) (p : KeyPair) : Option RuleTmp :=
  (addKey o p).bind fun e =>
    if e.checked ∧ (tmp.apply e).token.length ≥ maxTk then none else some (tmp.apply e)

def addPairs (o : Options) : RuleTmp → List KeyPair → Option RuleTmp
  | tmp, [] => some tmp
  | tmp, p::ps => (addPair o tmp p).bind fun tmp => addPairs o tmp ps

def ruleBlock (tmp : RuleTmp) : List Token :=
  .rule { tmp.rule with tokenCount := (1+tmp.token.length) % 2^16 }::(sortToken tmp.token).map .key

def addRule (o : Options) (line : CString) : Option (List Token) :=
  (addPairs o {} (linePairs line)).map ruleBlock

/-- A token as `add_rule` makes it: of a key type, not linked, and if it sets a property
then not one of those that may not be set. -/
structure NewToken (t : KeyToken) : Prop where
  isKey : t.type.isKey = true
  ruleGoto : t.ruleGoto = 0
  env : t.type = .aEnv → t.attr ∉ envBlacklist

theorem NewToken.ne_unset {t : KeyToken} (h : NewToken t) : t.type ≠ .unset := fun hu => by
  have := h.isKey
  rw [hu] at this
  cases this

theorem newToken_newKey {type : TokenType} (hk : type.isKey = true) (he : type ≠ .aEnv) (op : Op)
    (value : Option CString) (data : KeyData) : NewToken (newKey type op value data) :=
  ⟨hk,rfl,fun h => absurd h he⟩

def AllNew (e : KeyEffect) : Prop := ∀ t ∈ e.tokens, NewToken t

theorem allNew_oneKey {type : TokenType} (hk : type.isKey = true) (he : type ≠ .aEnv) (op : Op)
    (value : CString) (data : KeyData) : AllNew (oneKey type op value data) := by
  intro t ht
  rw [List.mem_singleton.mp ht]
  exact newToken_newKey hk he op _ data

def Taken (P : KeyEffect → Prop) (r : Option KeyEffect) : Prop := ∀ e, r = some e → P e

section Taken

variable {P : KeyEffect → Prop}

theorem Taken.ite {c : Prop} [Decidable c] {a b : Option KeyEffect} (ha : Taken P a) (hb : Taken P b) :
    Taken P (if c then a else b) := by
  split_ifs
  · exact ha
  · exact hb

theorem taken_none : Taken P none := fun _ h => by cases h

theorem taken_some {e : KeyEffect} (h : P e) : Taken P (some e) := fun _ he => Option.some.inj he ▸ h

theorem Taken.bind {o : Option CString} {f : CString → Option KeyEffect} (h : ∀ s, Taken P (f s)) :
    Taken P (o.bind f) := by
  cases o with
  | none => exact taken_none
  | some s => exact h s

theorem Taken.map {o : Option CString} {f : CString → KeyEffect} (h : ∀ s, P (f s)) :
    Taken P (o.map f) := by
  cases o with
  | none => exact taken_none
  | some s => exact taken_some (h s)

end Taken

theorem takenNew_matchOnly {type : TokenType} (hk : type.isKey = true) (he : type ≠ .aEnv) (op : Op)
    (value : CString) (data : KeyData) : Taken AllNew (matchOnly type op value data) :=
  Taken.ite (taken_some (allNew_oneKey hk he op value data)) taken_none

theorem allNew_matchOrAssign {mtype atype : TokenType} (hm : mtype.isKey = true) (hme : mtype ≠ .aEnv)
    (ha : atype.isKey = true) (hae : atype ≠ .aEnv) (op : Op) (value : CString) (data : KeyData) :
    AllNew (matchOrAssign mtype atype op value data) := by
  unfold matchOrAssign
  split_ifs
  · exact allNew_oneKey hm hme op value data
  · exact allNew_oneKey ha hae op value data

theorem takenNew_addSubsystem (op : Op) (value : CString) : Taken AllNew (addSubsystem op value) :=
  Taken.ite (takenNew_matchOnly rfl (by decide) _ _ _) (takenNew_matchOnly rfl (by decide) _ _ _)

theorem takenNew_addEnv (op : Op) (value attr : CString) : Taken AllNew (addEnv op value attr) := by
  intro e h
  unfold addEnv at h
  split_ifs at h with hm hb
  · exact Option.some.inj h ▸ @allNew_oneKey .mEnv rfl (by decide) op value _
  · intro t ht
    rw [← Option.some.inj h] at ht
    rw [List.mem_singleton.mp ht]
    exact ⟨rfl,rfl,fun _ => hb⟩

theorem allNew_empty : AllNew {} := fun _ ht => absurd ht (List.not_mem_nil)

theorem allNew_addImport (op : Op) (value attr : CString) : AllNew (addImport op value attr) := by
  unfold addImport
  split_ifs <;> first | exact allNew_empty | exact allNew_oneKey rfl (by decide) op value _

theorem allNew_addRun (op : Op) (value attr : CString) : AllNew (addRun op value attr) := by
  unfold addRun
  split_ifs <;> first | exact allNew_empty | exact allNew_oneKey rfl (by decide) op value _

theorem allNew_addName (op : Op) (value : CString) : AllNew (addName op value) := by
  unfold addName
  split_ifs
  · exact @allNew_oneKey .mName rfl (by decide) op value _
  · exact allNew_empty
  · exact allNew_empty
  · exact @allNew_oneKey .aName rfl (by decide) op value _

theorem allNew_addOwner (n : ℤ) (lookup : CString → Option ℕ) {idType type : TokenType}
    (hi : idType.isKey = true) (hie : idType ≠ .aEnv) (ht : type.isKey = true) (hte : type ≠ .aEnv)
    (op : Op) (value : CString) : AllNew (addOwner n lookup idType type op value) := by
  intro t h
  simp only [addOwner] at h
  split_ifs at h
  · exact List.mem_singleton.mp h ▸ newToken_newKey hi hie op _ _
  · exact List.mem_singleton.mp h ▸ newToken_newKey hi hie op _ _
  · exact List.mem_singleton.mp h ▸ newToken_newKey ht hte op _ _
  · exact absurd h List.not_mem_nil

theorem allNew_addMode (op : Op) (value : CString) : AllNew (addMode op value) := by
  intro t h
  simp only [addMode] at h
  split_ifs at h <;> exact List.mem_singleton.mp h ▸ newToken_newKey rfl (by decide) op _ _

theorem allNew_addOptions (op : Op) (value : CString) : AllNew (addOptions op value) := by
  have helim : ∀ (o : Option CString) (f : CString → List KeyToken), (∀ s, ∀ t ∈ f s, NewToken t) →
      ∀ t ∈ o.elim [] f, NewToken t := fun o f hf => by
    cases o with
    | none => simp
    | some s => exact hf s
  have hone : ∀ {type : TokenType} (value : Option CString) (data : KeyData), type.isKey = true →
      type ≠ .aEnv → ∀ t ∈ [newKey type op value data], NewToken t := fun value data hk he t ht =>
    List.mem_singleton.mp ht ▸ newToken_newKey hk he op value data
  intro t h
  simp only [addOptions,List.mem_append] at h
  rcases h with (((h | h) | h) | h) | h
  · exact helim _ _ (fun s => hone _ _ rfl (by decide)) t h
  · refine helim _ _ (fun s => ?_) t h
    split_ifs
    · exact hone _ _ rfl (by decide)
    · exact hone _ _ rfl (by decide)
    · simp
  · exact helim _ _ (fun s => hone _ _ rfl (by decide)) t h
  · split_ifs at h
    · exact hone _ _ rfl (by decide) t h
    · exact helim _ _ (fun s => hone _ _ rfl (by decide)) t h
  · exact helim _ _ (fun s => hone _ _ rfl (by decide)) t h

theorem takenNew_addKey (o : Options) (p : KeyPair) : Taken AllNew (addKey o p) := by
  have hm : ∀ {type : TokenType}, type.isKey = true → type ≠ .aEnv → ∀ value data,
      Taken AllNew (matchOnly type p.op value data) := fun hk he => takenNew_matchOnly hk he p.op
  have ho : ∀ {type : TokenType}, type.isKey = true → type ≠ .aEnv → ∀ op data,
      AllNew (oneKey type op p.value data) := fun hk he op => allNew_oneKey hk he op p.value
  unfold addKey
  dsimp only
  refine Taken.ite (hm rfl (by decide) _ _) ?_
  refine Taken.ite (hm rfl (by decide) _ _) ?_
  refine Taken.ite (hm rfl (by decide) _ _) ?_
  refine Taken.ite (takenNew_addSubsystem _ _) ?_
  refine Taken.ite (hm rfl (by decide) _ _) ?_
  refine Taken.ite (Taken.map fun a =>
    allNew_matchOrAssign rfl (by decide) rfl (by decide) _ _ _) ?_
  refine Taken.ite (Taken.map fun a => ho rfl (by decide) _ _) ?_
  refine Taken.ite (hm rfl (by decide) _ _) ?_
  refine Taken.ite (hm rfl (by decide) _ _) ?_
  refine Taken.ite (hm rfl (by decide) _ _) ?_
  refine Taken.ite (Taken.bind fun a => hm rfl (by decide) _ _) ?_
  refine Taken.ite (hm rfl (by decide) _ _) ?_
  refine Taken.ite (Taken.bind fun a => takenNew_addEnv _ _ a) ?_
  refine Taken.ite (taken_some (allNew_matchOrAssign rfl (by decide) rfl (by decide) _ _ _)) ?_
  refine Taken.ite (taken_some (ho rfl (by decide) _ _)) ?_
  refine Taken.ite (hm rfl (by decide) _ _) ?_
  refine Taken.ite (taken_some ?_) ?_
  · cases getKeyAttribute (p.key.drop 6) with
    | none => exact allNew_empty
    | some a => exact allNew_addImport _ _ a
  refine Taken.ite (hm rfl (by decide) _ _) ?_
  refine Taken.ite (taken_some (allNew_addRun _ _ _)) ?_
  refine Taken.ite (taken_some (ho rfl (by decide) _ _)) ?_
  refine Taken.ite (taken_some fun _ ht => absurd ht List.not_mem_nil) ?_
  refine Taken.ite (taken_some (ho rfl (by decide) _ _)) ?_
  refine Taken.ite (taken_some (allNew_addName _ _)) ?_
  refine Taken.ite (taken_some ?_) ?_
  · exact @allNew_matchOrAssign .mDevlink .aDevlink rfl (by decide) rfl (by decide) _ _ _
  refine Taken.ite (taken_some (allNew_addOwner _ _ rfl (by decide) rfl (by decide) _ _)) ?_
  refine Taken.ite (taken_some (allNew_addOwner _ _ rfl (by decide) rfl (by decide) _ _)) ?_
  refine Taken.ite (taken_some (allNew_addMode _ _)) ?_
  exact Taken.ite (taken_some (allNew_addOptions _ _)) taken_none

theorem sortToken_new {ts : List KeyToken} (h : ∀ t ∈ ts, NewToken t) :
    Sorts (fun t : KeyToken => t.type.code) ts (sortToken ts) :=
  sortToken_sorts ts fun t ht => (h t ht).ne_unset

theorem addPairs_new {o : Options} {tmp tmp' : RuleTmp} {ps : List KeyPair}
    (h : addPairs o tmp ps = some tmp') (htmp : ∀ t ∈ tmp.token, NewToken t) :
    ∀ t ∈ tmp'.token, NewToken t := by
  induction ps generalizing tmp with
  | nil => exact Option.some.inj h ▸ htmp
  | cons p ps ih =>
    obtain ⟨tmp₁,h₁,h₂⟩ := Option.bind_eq_some_iff.mp h
    obtain ⟨e,he,hc⟩ := Option.bind_eq_some_iff.mp h₁
    split_ifs at hc
    refine ih h₂ fun t ht => ?_
    rw [← Option.some.inj hc] at ht
    rcases List.mem_append.mp ht with ht | ht
    · exact htmp t ht
    · exact takenNew_addKey o p e he t ht

end Rules
end Udev
