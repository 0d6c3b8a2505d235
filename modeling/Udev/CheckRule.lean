import Udev.KeyTable
import Udev.LineParse

/-! `udevrule`, the program that checks a rules file: how it cuts a line into clauses and a clause
into its key, operator and value, and the tables that it looks the key up in. -/
namespace Udev
namespace CheckRule

open CString RuleLine RoundTrip Rules

open scoped List

inductive Err
  | unkey | operexp | oper | quotexp | iloper | bracexp | noattr | value
  deriving DecidableEq, Repr

def Err.code (e : Err) : ℤ := e.ctorIdx

/-- The loop of `rule_getclause` in a state of `quoted`: the clause and the text where it ends. -/
def getclause : Bool → CString → CString × CString
  | _, [] => ([],[])
  | quoted, c::cs =>
    if c = chr '\n' ∨ quoted = false ∧ c = chr ',' then ([],c::cs)
    else
      let r := getclause (if c = chr '"' then !quoted else quoted) cs
      (c::r.1,r.2)

def ruleGetclause (line : CString) : CString × CString := getclause false line

def ruleGetoper (clause : CString) : Option (Op × ℕ) :=
  if charAt clause 1 = chr '=' then
    if charAt clause 0 = chr '=' then some (.opMatch,2)
    else if charAt clause 0 = chr '!' then some (.opNomatch,2)
    else if charAt clause 0 = chr '+' then some (.opAdd,2)
    else if charAt clause 0 = chr ':' then some (.opAssignFinal,2)
    else none
  else if charAt clause 0 = chr '=' then some (.opAssign,1)
  else none

def keyChar (c : UInt8) : Bool :=
  !(isspace c || c == chr '=' || c == chr '+' || c == chr '!' || c == chr ':')

/-- The loop over the value: what it copies and the text at which it stops. The flag says that
the next byte is an escaped quote. -/
def ruleValue : Bool → CString → CString × CString
  | _, [] => ([],[])
  | true, c::cs => (c::(ruleValue false cs).1,(ruleValue false cs).2)
  | false, c::cs =>
    if c = chr '"' then ([],c::cs)
    else if c = chr '\\' ∧ charAt cs 0 = chr '"' then ruleValue true cs
    else (c::(ruleValue false cs).1,(ruleValue false cs).2)

def ruleGetkey (clause : CString) : Except Err (CString × Op × CString) :=
  let key := clause.takeWhile keyChar
  let p := (clause.dropWhile keyChar).dropWhile isspace
  if p = [] then .error .operexp
  else
    match ruleGetoper p with
    | none => .error .oper
    | some (op,sz) =>
      let p := (p.drop sz).dropWhile isspace
      if charAt p 0 ≠ chr '"' then .error .quotexp
      else
        let r := ruleValue false (p.drop 1)
        if charAt r.2 0 ≠ chr '"' then .error .quotexp
        else if charAt r.2 1 ≠ 0 then .error .value
        else .ok (key,op,r.1)

def noArgsKeys : List CString :=
  [str "NAME",str "SYMLINK",str "TAG",str "OWNER",str "GROUP",str "MODE",str "PROGRAM",str "RUN",
   str "LABEL",str "GOTO",str "WAIT_FOR",str "WAIT_FOR_SYSFS",str "OPTIONS"]

def noArgsMatchKeys : List CString :=
  [str "ACTION",str "DEVPATH",str "KERNEL",str "KERNELS",str "SUBSYSTEM",str "SUBSYSTEMS",str "DRIVER",
   str "DRIVERS",str "TAGS",str "TEST",str "RESULT"]

def argsKeys : List CString := [str "ATTR",str "ENV",str "IMPORT",str "RUN",str "SECLABEL"]

def argsMatchKeys : List CString := [str "ATTRS",str "TEST"]

def checkNoArgs (key : CString) : ℤ := if key ∈ noArgsKeys then 1 else Err.unkey.code

def checkNoArgsMatch (key : CString) (op : Op) : ℤ :=
  if key ∈ noArgsMatchKeys then if op.isMatch then 1 else -Err.iloper.code else Err.unkey.code

/-- `strncmp` finds no difference in the first bytes. -/
def strneq (s t : CString) (n : ℕ) : Bool := s.take n = t.take n

def checkBraces (p : CString) : ℤ :=
  match strchr p (chr '}') with
  | none => -Err.bracexp.code
  | some pos => if pos = p then -Err.noattr.code else 1

/-- Whatever entry of the table the start of the key is compared with, only the part of the key
before the brace is compared. -/
def checkArgs (key : CString) : ℤ :=
  match strchr key (chr '{') with
  | none => Err.unkey.code
  | some p =>
    if argsKeys.any fun n => strneq key n (key.length-p.length) then checkBraces (p.drop 1) else Err.unkey.code

def checkArgsMatch (key : CString) (op : Op) : ℤ :=
  match strchr key (chr '{') with
  | none => Err.unkey.code
  | some p =>
    if argsMatchKeys.any fun n => strneq key n (key.length-p.length) then
      if op.isMatch then checkBraces (p.drop 1) else -Err.iloper.code
    else Err.unkey.code

def check (clause : CString) : ℤ :=
  match ruleGetkey clause with
  | .error e => -e.code
  | .ok (key,op,_) =>
    let res := checkNoArgs key
    let res := if res = 0 then checkNoArgsMatch key op else res
    let res := if res = 0 then checkArgs key else res
    if res = 0 then checkArgsMatch key op else res

set_option maxRecDepth 4000 in
example : check (ruleGetclause (str "ATTR\x7bsize\x7d==\"a,b\", NAME=\"c\"\n")).1 = 1 := by decide

def keyName (key : CString) : CString := key.takeWhile (· ≠ chr '{')

/-- The key is in a table, or the part before the brace is the start of an entry and there is an
attribute. -/
def InTables (key : CString) (op : Op) : Prop :=
  key ∈ noArgsKeys ∨ key ∈ noArgsMatchKeys ∧ op.isMatch ∨
    ∃ a, getKeyAttribute key = some a ∧ a ≠ [] ∧
      ((∃ n ∈ argsKeys, keyName key <+: n) ∨ op.isMatch ∧ ∃ n ∈ argsMatchKeys, keyName key <+: n)

theorem strneq_keyName {key p : CString} (h : strchr key (chr '{') = some p) (n : CString) :
    strneq key n (key.length-p.length) = true ↔ keyName key <+: n := by
  have hkey : key = keyName key ++ p := (strchr_eq_some h).1
  have hlen : key.length-p.length = (keyName key).length := by
    conv_lhs => rw [hkey]
    rw [List.length_append]
    omega
  have htake : key.take (keyName key).length = keyName key := by
    have htake : (keyName key ++ p).take (keyName key).length = keyName key := List.take_left
    rwa [← hkey] at htake
  rw [strneq,hlen,htake,decide_eq_true_eq,List.prefix_iff_eq_take]

def braceText (p : CString) : Option CString :=
  if (strchr p (chr '}')).isSome then some (p.takeWhile (· ≠ chr '}')) else none

theorem checkBraces_pos (p : CString) : 0 < checkBraces p ↔ ∃ a, braceText p = some a ∧ a ≠ [] := by
  unfold checkBraces braceText
  cases h : strchr p (chr '}') with
  | none => simp [Err.code]
  | some pos =>
    have hp := (strchr_eq_some h).1
    have hempty : pos = p ↔ p.takeWhile (· ≠ chr '}') = [] := by
      constructor
      · rintro rfl
        exact List.self_eq_append_left.mp hp
      · intro hnil
        rw [hnil] at hp
        exact hp.symm
    by_cases hpos : pos = p
    · simp only [if_pos hpos,Option.isSome_some,if_true,Option.some.injEq,exists_eq_left',hempty.mp hpos]
      decide
    · simp only [if_neg hpos,Option.isSome_some,if_true,Option.some.injEq,exists_eq_left']
      exact iff_of_true (by decide) fun hnil => hpos (hempty.mpr hnil)

theorem getKeyAttribute_brace {key p : CString} (h : strchr key (chr '{') = some p) :
    getKeyAttribute key = braceText (p.drop 1) := by
  rw [getKeyAttribute,h,Option.bind_some,braceText]

section Tables

variable {key : CString} {op : Op}

theorem checkArgs_iff : 0 < checkArgs key ↔
    (∃ n ∈ argsKeys, keyName key <+: n) ∧ ∃ a, getKeyAttribute key = some a ∧ a ≠ [] := by
  unfold checkArgs
  cases h : strchr key (chr '{') with
  | none => exact iff_of_false (lt_irrefl 0) (by simp [getKeyAttribute,h])
  | some p =>
    simp only [List.any_eq_true,strneq_keyName h,getKeyAttribute_brace h]
    split_ifs with hname
    · rw [checkBraces_pos]
      exact (and_iff_right hname).symm
    · exact iff_of_false (by decide) fun hn => hname hn.1

theorem checkArgsMatch_iff : 0 < checkArgsMatch key op ↔
    (op.isMatch = true ∧ ∃ n ∈ argsMatchKeys, keyName key <+: n) ∧ ∃ a, getKeyAttribute key = some a ∧ a ≠ [] := by
  unfold checkArgsMatch
  cases h : strchr key (chr '{') with
  | none => exact iff_of_false (lt_irrefl 0) (by simp [getKeyAttribute,h])
  | some p =>
    simp only [List.any_eq_true,strneq_keyName h,getKeyAttribute_brace h]
    split_ifs with hname hop
    · rw [checkBraces_pos]
      exact (and_iff_right ⟨hop,hname⟩).symm
    · exact iff_of_false (by decide) fun hn => hop hn.1.1
    · exact iff_of_false (by decide) fun hn => hname hn.1.2

/-- A key whose start is in the first table is not looked up in the second. -/
theorem checkArgs_eq_zero (h : checkArgs key = 0) (hattr : getKeyAttribute key ≠ none) :
    ¬∃ n ∈ argsKeys, keyName key <+: n := by
  intro hname
  unfold checkArgs at h
  cases hp : strchr key (chr '{') with
  | none => exact hattr (by simp [getKeyAttribute,hp])
  | some p =>
    simp only [hp,List.any_eq_true,strneq_keyName hp] at h
    rw [if_pos hname] at h
    unfold checkBraces at h
    split at h
    · exact absurd h (by decide)
    · split_ifs at h <;> exact absurd h (by decide)

theorem checkArgs_ne_zero (h : checkArgs key ≠ 0) : ∃ n ∈ argsKeys, keyName key <+: n := by
  by_contra hname
  apply h
  unfold checkArgs
  cases hp : strchr key (chr '{') with
  | none => rfl
  | some p =>
    simp only [List.any_eq_true,strneq_keyName hp]
    exact if_neg hname

theorem getKeyAttribute_noArgsMatchKeys (h : key ∈ noArgsMatchKeys) : getKeyAttribute key = none := by
  simp only [noArgsMatchKeys,List.mem_cons,List.not_mem_nil,or_false] at h
  rcases h with rfl | rfl | rfl | rfl | rfl | rfl | rfl | rfl | rfl | rfl | rfl <;> rfl

theorem check_ok {clause value : CString} (h : ruleGetkey clause = .ok (key,op,value)) :
    0 < check clause ↔ InTables key op := by
  simp only [check,h,InTables]
  by_cases hno : key ∈ noArgsKeys
  · have hcode : checkNoArgs key = 1 := if_pos hno
    rw [hcode]
    exact iff_of_true Int.one_pos (Or.inl hno)
  have hcode : checkNoArgs key = 0 := if_neg hno
  rw [hcode,if_pos rfl,or_iff_right hno]
  by_cases hmatch : key ∈ noArgsMatchKeys
  · have hattr := getKeyAttribute_noArgsMatchKeys hmatch
    rw [checkNoArgsMatch,if_pos hmatch]
    by_cases hop : op.isMatch = true
    · rw [if_pos hop]
      exact iff_of_true Int.one_pos (Or.inl ⟨hmatch,hop⟩)
    · rw [if_neg hop]
      exact iff_of_false (show ¬(0 : ℤ) < -4 by decide) (by simp [hop,hattr])
  have hcode : checkNoArgsMatch key op = 0 := if_neg hmatch
  rw [hcode,if_pos rfl,or_iff_right fun hm => hmatch hm.1]
  by_cases hargs : checkArgs key = 0
  · rw [if_pos hargs,checkArgsMatch_iff]
    constructor
    · rintro ⟨hname,a,hattr,hne⟩
      exact ⟨a,hattr,hne,Or.inr hname⟩
    · rintro ⟨a,hattr,hne,hname⟩
      have hnot := checkArgs_eq_zero hargs (by rw [hattr]; exact Option.some_ne_none a)
      exact ⟨hname.resolve_left hnot,a,hattr,hne⟩
  · rw [if_neg hargs,checkArgs_iff,and_iff_right (checkArgs_ne_zero hargs)]
    constructor
    · rintro ⟨a,hattr,hne⟩
      exact ⟨a,hattr,hne,Or.inl (checkArgs_ne_zero hargs)⟩
    · rintro ⟨a,hattr,hne,-⟩
      exact ⟨a,hattr,hne⟩

theorem check_error {clause : CString} {e : Err} (h : ruleGetkey clause = .error e) : ¬0 < check clause := by
  have hcode : 0 ≤ e.code := Int.natCast_nonneg _
  simp only [check,h]
  omega

end Tables

end CheckRule
end Udev
